import AmplitudeTree.Proofs.Register.Reversible
import AmplitudeTree.Proofs.StateVector.SignedAddition

/-!
# Signed subtraction after signed addition

A signed subtraction adds a complement and tests for overflow as the addition does.  The least number
of a range is its own complement, so the test then answers for the sum with this number and not for the
difference.  A subtraction of any other number puts back the signs that the addition has changed.
-/

namespace AmplitudeTree.Register

open StateVector (ReversibleCall)

variable {reg sum back : Register ℝ} {range : QubitRange} {operand overflow : ℕ}

/-- A signed addition and the addition of the complement bring every amplitude back,
some of them negated. -/
theorem Performs.represented_add_complement (nonempty : range.length ≠ 0)
    (outside : range.contains overflow = false) (inside : range.stop ≤ reg.width)
    {addend addend' : ℕ} (complementary : addend % range.span + addend' ≡ 0 [MOD range.span])
    (first : Performs reg (.addSigned addend range overflow) sum)
    (second : Performs sum (.addSigned addend' range overflow) back) {index : BasisIndex}
    (below : index < 2 ^ reg.width) :
    back.represented index =
      if addend % range.span = 2 ^ (range.length - 1) ∧ index.testBit overflow = true
      then -reg.represented index else reg.represented index := by
  have nothing : addend % range.span + addend' % range.span ≡ 0 [MOD range.span] :=
    ((Nat.mod_modEq _ _).add_left _).trans complementary
  have restored : (ReversibleCall.addSigned addend' range overflow).place
      ((ReversibleCall.addSigned addend range overflow).place index) = index := by
    dsimp only [ReversibleCall.place]
    rw [StateVector.addIndex_addIndex inside (Nat.zero_and _), StateVector.addIndex_congr nothing,
      StateVector.addIndex_zero]
  have moved := first.represented_next second below
  rw [restored] at moved
  rw [moved]
  exact if_congr (ReversibleCall.negates_add_complement nonempty outside complementary index) rfl rfl

/-- Where a signed addition returns, so does the subtraction of the operand.  It restores every
amplitude, but for the least operand it negates all basis states with the overflow qubit set. -/
theorem subtractSigned_addSigned (reachable : reg.Reachable) (nonempty : range.length ≠ 0)
    (word : operand < indexSpan) :
    ((∃ sum, (addSigned operand range overflow).runOn reg = (.ok (), sum)) ↔
      Expands reg [.arithmetic] ∧ (range.stop ≤ reg.width ∧ overflow < reg.width ∧
        range.contains overflow = false) ∧ ∃ index < 2 ^ reg.width, reg.represented index ≠ 0) ∧
    ∀ sum, (addSigned operand range overflow).runOn reg = (.ok (), sum) →
      ∃ back, (subtractSigned operand range overflow).runOn sum = (.ok (), back) ∧
        back.width = reg.width ∧
        (∀ index < 2 ^ reg.width, back.represented index =
          if operand % range.span = 2 ^ (range.length - 1) ∧ index.testBit overflow = true
          then -reg.represented index else reg.represented index) ∧
        ((∀ index < 2 ^ reg.width, back.represented index = reg.represented index) ↔
          (operand % range.span = 2 ^ (range.length - 1) →
            ∀ index < 2 ^ reg.width, index.testBit overflow = true → reg.represented index = 0)) := by
  have sound := reachable.sound
  refine ⟨?_, fun sum run => ?_⟩
  · rw [exists_congr fun _ => sound.runOn_addSigned_eq_ok nonempty operand,
      sound.exists_reversible_iff]
    refine and_congr_right' (and_congr_left' ⟨?_, ?_⟩)
    · rintro ⟨-, inside, below, outside⟩
      exact ⟨inside, below, outside⟩
    · rintro ⟨inside, below, outside⟩
      exact ⟨nonempty, inside, below, outside⟩
  have first := sound.performs ((sound.runOn_addSigned_eq_ok nonempty operand).mp run)
  obtain ⟨-, inside, -, outside⟩ := first.accepts
  have narrow : range.length ≤ BasisIndex.maxWidth :=
    (sound.length_lt_wordBits first.expands.dense inside).le.trans (by decide)
  obtain ⟨back, ran, second⟩ := first.exists_next
    (.addSigned (complement operand % range.span) range overflow) first.accepts
  have complementary : operand % range.span % range.span + complement operand % range.span ≡ 0
      [MOD range.span] := by
    rw [Nat.mod_mod]
    exact add_complement_modEq narrow word.le
  have represented (index : BasisIndex) (below : index < 2 ^ reg.width) :
      back.represented index =
        if operand % range.span = 2 ^ (range.length - 1) ∧ index.testBit overflow = true
        then -reg.represented index else reg.represented index := by
    rw [first.represented_add_complement nonempty outside inside complementary second below,
      Nat.mod_mod]
  refine ⟨back, (first.sound.runOn_addSigned_eq_ok nonempty _).mpr ran,
    second.width.trans first.width, represented, ⟨fun restored least index below set => ?_,
      fun empty index below => ?_⟩⟩
  · have negated := represented index below
    rw [restored index below, if_pos ⟨least, set⟩] at negated
    exact (Amplitude.neg_eq_self_iff _).mp negated.symm
  · rw [represented index below]
    split
    · next negated =>
        exact (Amplitude.neg_eq_self_iff _).mpr (empty negated.1 index below negated.2)
    · rfl

/-- The least number of a range of two qubits is added to zero and taken away again. -/
theorem subtractSigned_addSigned_two :
    let list : Array (Amplitude ℝ) := #[1, 0, 0, 0, 1, 0, 0, 0]
    ∃ fresh reg sum back : Register ℝ, create 3 0 exactConfig 0 = .ok fresh ∧
      (setAmplitudes list).runOn fresh = (.ok (), reg) ∧
      (addSigned 2 ⟨0, 2⟩ 2).runOn reg = (.ok (), sum) ∧
      (subtractSigned 2 ⟨0, 2⟩ 2).runOn sum = (.ok (), back) ∧
        reg.represented 4 = 1 ∧ back.represented 4 = -1 ∧ back.represented 0 = 1 := by
  intro list
  obtain ⟨fresh, reg, made, written, ready, width, config, factory, represented⟩ :=
    exists_ready_of_amplitudes 3 (by decide) list rfl
      ⟨1, by simp [list], Amplitude.one_ne_zero⟩
  have narrow : reg.width ≤ exactConfig.denseLimit := by
    rw [width]
    decide
  have bound (index : BasisIndex) (below : index < 2 ^ 3) : index < 2 ^ reg.width :=
    below.trans_eq (by rw [width])
  have nonempty : (QubitRange.mk 0 2).length ≠ 0 := by decide
  have operands : QubitRange.stop ⟨0, 2⟩ ≤ reg.width ∧ 2 < reg.width ∧
      QubitRange.contains ⟨0, 2⟩ 2 = false := by
    rw [width]
    decide
  have plain : reg.represented 0 = 1 := represented 0 (by decide)
  have flagged : reg.represented 4 = 1 := represented 4 (by decide)
  have nonzero : reg.represented 0 ≠ 0 := by
    rw [plain]
    exact Amplitude.one_ne_zero
  obtain ⟨returns, restores⟩ := @subtractSigned_addSigned reg ⟨0, 2⟩ 2 2 ready.reachable nonempty
    (by decide)
  obtain ⟨sum, added⟩ := returns.mpr
    ⟨expands_of_narrow config factory narrow [.arithmetic], operands, 0, bound 0 (by decide), nonzero⟩
  obtain ⟨back, taken, -, kept, -⟩ := restores sum added
  refine ⟨fresh, reg, sum, back, made, written, added, taken, flagged, ?_, ?_⟩
  · rw [kept 4 (bound 4 (by decide)), if_pos ⟨rfl, rfl⟩, flagged]
  · rw [kept 0 (bound 0 (by decide)), if_neg fun negated => Bool.noConfusion negated.2, plain]

end AmplitudeTree.Register
