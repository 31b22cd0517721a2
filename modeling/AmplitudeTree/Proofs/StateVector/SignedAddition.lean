import AmplitudeTree.Proofs.StateVector.Reversible
import AmplitudeTree.Proofs.StateVector.Signed

/-!
# Signed addition on state vectors

Addition in two's complement, with or without a carry qubit at the top, moves every basis state to the
one with the sum.  It negates those whose range overflows: no number of the range's length expresses
the sum of the two signed numbers.
-/

namespace AmplitudeTree.StateVector

variable {v : StateVector ℝ} {range : QubitRange} {overflow : ℕ}

theorem ReversibleCall.negates_addSigned (nonempty : range.length ≠ 0) (addend : ℕ)
    (index : BasisIndex) : (ReversibleCall.addSigned addend range overflow).negates index = true ↔
      Inexpressible range.length
          (signed range.length (range.read index) + signed range.length (addend % range.span)) ∧
        index.testBit overflow = true := by
  dsimp only [negates]
  rw [Bool.and_eq_true]
  exact and_congr_left fun _ =>
    overflows_iff nonempty (range.read_lt index) (Nat.mod_lt _ range.span_pos)

/-- A signed addition of a complement negates where the difference overflows or, for the least
number, where it does not. -/
theorem ReversibleCall.negates_complement (nonempty : range.length ≠ 0) {subtrahend addend : ℕ}
    (complementary : subtrahend % range.span + addend ≡ 0 [MOD range.span]) (index : BasisIndex) :
    (ReversibleCall.addSigned addend range overflow).negates index = true ↔
      Xor (Inexpressible range.length (signed range.length (range.read index) -
          signed range.length (subtrahend % range.span)))
        (subtrahend % range.span = 2 ^ (range.length - 1)) ∧ index.testBit overflow = true := by
  have below : subtrahend % range.span < range.span := Nat.mod_lt _ range.span_pos
  have complement : addend % range.span =
      (range.span - subtrahend % range.span) % range.span := by
    refine Nat.ModEq.add_left_cancel' (subtrahend % range.span) (complementary.trans ?_)
    rw [Nat.add_sub_cancel' below.le]
    exact (Nat.modEq_zero_iff_dvd.mpr dvd_rfl).symm
  rw [negates_addSigned nonempty, complement]
  refine and_congr_left fun _ => ?_
  rw [← overflows_complement_iff nonempty (range.read_lt index) below]
  exact (overflows_iff nonempty (range.read_lt index) (Nat.mod_lt _ range.span_pos)).symm

/-- Of an addition and that of the complement one alone negates if the operand is the least number;
else both or none. -/
theorem ReversibleCall.negates_add_complement (nonempty : range.length ≠ 0)
    (outside : range.contains overflow = false) {addend addend' : ℕ}
    (complementary : addend % range.span + addend' ≡ 0 [MOD range.span]) (index : BasisIndex) :
    ((ReversibleCall.addSigned addend range overflow).negates index ^^
      (ReversibleCall.addSigned addend' range overflow).negates
        ((ReversibleCall.addSigned addend range overflow).place index)) = true ↔
      addend % range.span = 2 ^ (range.length - 1) ∧ index.testBit overflow = true := by
  have below : addend % range.span < range.span := Nat.mod_lt _ range.span_pos
  have number : range.read ((ReversibleCall.addSigned addend range overflow).place index) =
      (range.read index + addend % range.span) % range.span :=
    read_addIndex (beq_iff_eq.mpr (Nat.and_zero index)) _
  have kept : ((ReversibleCall.addSigned addend range overflow).place index).testBit overflow =
      index.testBit overflow := testBit_addIndex outside ..
  have undone : Inexpressible range.length
      (signed range.length ((range.read index + addend % range.span) % range.span) -
        signed range.length (addend % range.span)) ↔ _ :=
    inexpressible_sub_iff nonempty (range.read_lt index) below
  rw [Bool.xor_iff_ne, Ne, Bool.eq_iff_iff, negates_addSigned nonempty,
    negates_complement nonempty complementary, kept, number, undone, xor_iff_iff_not]
  tauto

/-- Signed addition accepts operands that are apart.  It moves every basis state to the one with the
sum, and negates it just in case the signed sum has no expression in two's complement and the
overflow qubit, if there is one, is set. -/
theorem signed_addition (size : v.amplitudes.size = 2 ^ v.width) (nonempty : range.length ≠ 0)
    (addend : ℕ) :
    (∀ overflow,
      ((∃ v', v.addSigned addend range overflow = .ok v') ↔
        range.stop ≤ v.width ∧ overflow < v.width ∧ range.contains overflow = false) ∧
      ∀ v', v.addSigned addend range overflow = .ok v' →
        ∃ place negates, v.Rearranges v' place negates ∧ ∀ index : BasisIndex,
          let value := range.read index
          let summand := addend % range.span
          range.read (place index) = (value + summand) % range.span ∧
          (∀ q, range.contains q = false → (place index).testBit q = index.testBit q) ∧
          (negates index = true ↔
            Inexpressible range.length (signed range.length value + signed range.length summand) ∧
              index.testBit overflow = true)) ∧
    ∀ (overflow : Option ℕ) (carry : ℕ),
      ((∃ v', v.addSignedCarry addend range overflow carry = .ok v') ↔
        range.stop ≤ v.width ∧ carry < v.width ∧ range.contains carry = false ∧
          ∀ qubit ∈ overflow, qubit < v.width ∧ range.contains qubit = false ∧ qubit ≠ carry) ∧
      ∀ v', v.addSignedCarry addend range overflow carry = .ok v' →
        ∃ place negates, v.Rearranges v' place negates ∧ ∀ index : BasisIndex,
          let value := range.read index
          let summand := addend % range.span
          readWide range carry (place index) =
            (readWide range carry index + addend) % (2 * range.span) ∧
          (∀ q, range.contains q = false → q ≠ carry →
            (place index).testBit q = index.testBit q) ∧
          (negates index = true ↔
            Inexpressible range.length (signed range.length value + signed range.length summand) ∧
              ∀ qubit ∈ overflow, index.testBit qubit = true) := by
  constructor
  · intro overflow
    have returns (v' : StateVector ℝ) := @ReversibleCall.run_eq_ok v (.addSigned addend range overflow) v'
    refine ⟨⟨?_, ?_⟩, ?_⟩
    · rintro ⟨v', ran⟩
      obtain ⟨-, inside, below, outside⟩ := ((returns v').mp ran).1
      exact ⟨inside, below, outside⟩
    · rintro ⟨inside, below, outside⟩
      exact ⟨_, (returns _).mpr ⟨⟨nonempty, inside, below, outside⟩, rfl⟩⟩
    · intro v' ran
      obtain ⟨accepts, rfl⟩ := (returns v').mp ran
      refine ⟨_, _, ReversibleCall.rearranges_result size accepts, fun index => ⟨?_, ?_, ?_⟩⟩
      · exact read_addIndex (beq_iff_eq.mpr (Nat.and_zero index)) _
      · exact fun q outside => ReversibleCall.testBit_place accepts index (Bool.eq_false_iff.mp outside)
      · exact ReversibleCall.negates_addSigned nonempty addend index
  · intro overflow carry
    have returns (v' : StateVector ℝ) :=
      @ReversibleCall.run_eq_ok v (.addSignedCarry addend range overflow carry) v'
    refine ⟨⟨?_, ?_⟩, ?_⟩
    · rintro ⟨v', ran⟩
      obtain ⟨⟨-, inside, below, outside⟩, free⟩ := ((returns v').mp ran).1
      exact ⟨inside, below, outside, free⟩
    · rintro ⟨inside, below, outside, free⟩
      exact ⟨_, (returns _).mpr ⟨⟨⟨nonempty, inside, below, outside⟩, free⟩, rfl⟩⟩
    · intro v' ran
      obtain ⟨accepts, rfl⟩ := (returns v').mp ran
      refine ⟨_, _, ReversibleCall.rearranges_result size accepts, fun index => ⟨?_, ?_, ?_⟩⟩
      · exact readWide_addCarryIndex accepts.1 addend index
      · exact fun q outside different =>
          ReversibleCall.testBit_place accepts index
            (not_or.mpr ⟨Bool.eq_false_iff.mp outside, different⟩)
      · dsimp only [ReversibleCall.negates]
        rw [Bool.and_eq_true, read_addCarryIndex accepts.1, Option.all_eq_true]
        exact and_congr_left fun _ =>
          overflows_iff nonempty (range.read_lt index) (Nat.mod_lt _ range.span_pos)

/-- One is added to one in a range of two qubits, and five to the range and its
carry; both overflow. -/
theorem signed_addition_one :
    let v : StateVector ℝ :=
      ⟨4, Array.ofFn fun index : Fin 16 => ⟨(index : ℕ), 0⟩, .ofSeed 0, .all⟩
    v.amplitudes.size = 2 ^ v.width ∧ QubitRange.length ⟨0, 2⟩ ≠ 0 ∧
      (∃ sum, v.addSigned 1 ⟨0, 2⟩ 3 = .ok sum ∧ sum.amplitudeD 10 = -⟨9, 0⟩) ∧
      ∃ sum, v.addSignedCarry 5 ⟨0, 2⟩ (some 3) 2 = .ok sum ∧ sum.amplitudeD 14 = -⟨9, 0⟩ := by
  intro v
  have size : v.amplitudes.size = 2 ^ v.width := Array.size_ofFn
  have nonempty : QubitRange.length ⟨0, 2⟩ ≠ 0 := by decide
  have stored : 9 < v.amplitudes.size := by
    rw [size]
    decide
  have entry : v.amplitudeD 9 = ⟨9, 0⟩ := by simp [v, amplitudeD]
  have overflows : Inexpressible 2 (signed 2 1 + signed 2 1) := by
    rw [Inexpressible]
    decide
  refine ⟨size, nonempty, ?_, ?_⟩
  · obtain ⟨accepts, moves⟩ := (signed_addition size nonempty 1).1 3
    obtain ⟨sum, ran⟩ := accepts.mpr ⟨by decide, by decide, rfl⟩
    obtain ⟨place, negates, ⟨-, bijective, moved⟩, places⟩ := moves sum ran
    obtain ⟨number, others, negated⟩ := places 9
    have below : place 9 < 2 ^ 4 := (bijective.mapsTo stored).trans_eq size
    have only : ∀ image < 2 ^ 4, QubitRange.read ⟨0, 2⟩ image = 2 → image.testBit 2 = false →
        image.testBit 3 = true → image = 10 := by decide
    have image : place 9 = 10 := only _ below number (others 2 rfl) (others 3 rfl)
    refine ⟨sum, ran, ?_⟩
    rw [← image, moved 9 stored, if_pos (negated.mpr ⟨overflows, rfl⟩), entry]
  · obtain ⟨accepts, moves⟩ := (signed_addition size nonempty 5).2 (some 3) 2
    obtain ⟨sum, ran⟩ := accepts.mpr ⟨by decide, by decide, rfl, by
      rintro _ ⟨⟩
      exact ⟨by decide, rfl, by decide⟩⟩
    obtain ⟨place, negates, ⟨-, bijective, moved⟩, places⟩ := moves sum ran
    obtain ⟨number, others, negated⟩ := places 9
    have below : place 9 < 2 ^ 4 := (bijective.mapsTo stored).trans_eq size
    have only : ∀ image < 2 ^ 4, readWide ⟨0, 2⟩ 2 image = 6 → image.testBit 3 = true →
        image = 14 := by decide
    have image : place 9 = 14 := only _ below number (others 3 rfl (by decide))
    have flagged : ∀ qubit ∈ some 3, Nat.testBit 9 qubit = true := by
      rintro _ ⟨⟩
      rfl
    refine ⟨sum, ran, ?_⟩
    rw [← image, moved 9 stored, if_pos (negated.mpr ⟨overflows, flagged⟩), entry]

end AmplitudeTree.StateVector
