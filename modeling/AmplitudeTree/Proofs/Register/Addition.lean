import AmplitudeTree.Proofs.Register.Reversible

/-!
# Addition and subtraction on ranges

An addition moves every basis state with all controls set to the one whose range holds the sum, modulo
the span of the range, and leaves the other ones alone.  A subtraction adds a complement of 128 bits,
which is reduced to the range as any other operand; so it takes the number away again, and two additions
are one addition of the sum.
-/

namespace AmplitudeTree.StateVector

variable {range : QubitRange} {controls : List ℕ} {index : BasisIndex} {addend : ℕ} {amount : ℤ}

/-- One index is another one whose range holds more by an amount, if all controls are set; else it
is the same. -/
structure Shifts (range : QubitRange) (controls : List ℕ) (amount : ℤ) (index image : BasisIndex) :
    Prop where
  selected : (∀ control ∈ controls, index.testBit control = true) →
    (range.read image : ℤ) = (range.read index + amount) % range.span
  unselected : ¬ (∀ control ∈ controls, index.testBit control = true) → image = index
  others : ∀ q, range.contains q = false → image.testBit q = index.testBit q

theorem shifts_addIndex (same : (addend : ℤ) ≡ amount [ZMOD range.span]) :
    Shifts range controls amount index (addIndex addend range (maskOf controls) index) where
  selected set := by
    rw [read_addIndex (hasAll_maskOf.mpr set), Int.natCast_mod, Int.natCast_add]
    exact same.add_left _
  unselected unset := by
    rw [addIndex, if_neg (mt hasAll_maskOf.mp unset)]
  others _ outside := testBit_addIndex outside ..

theorem Shifts.unique {image image' : BasisIndex} (shifts : Shifts range controls amount index image)
    (shifts' : Shifts range controls amount index image') : image = image' := by
  by_cases set : ∀ control ∈ controls, index.testBit control = true
  · refine QubitRange.eq_of_read
      (Int.ofNat_inj.mp ((shifts.selected set).trans (shifts'.selected set).symm)) fun q outside => ?_
    rw [shifts.others q outside, shifts'.others q outside]
  · rw [shifts.unselected set, shifts'.unselected set]

end AmplitudeTree.StateVector

namespace AmplitudeTree.Register

open StateVector (ReversibleCall Shifts addIndex maskOf)

variable {reg left last : Register ℝ} {range : QubitRange} {controls : List ℕ}
  {addend addend' : ℕ} {amount : ℤ}

structure Adds (reg : Register ℝ) (amount : ℤ) (range : QubitRange) (controls : List ℕ)
    (left : Register ℝ) : Prop where
  width : left.width = reg.width
  exists_place : ∃ place, Set.BijOn place (Set.Iio (2 ^ reg.width)) (Set.Iio (2 ^ reg.width)) ∧
    ∀ index < 2 ^ reg.width, Shifts range controls amount index (place index) ∧
      left.represented (place index) = reg.represented index

namespace Performs

theorem adds (performs : Performs reg (.add addend range controls) left)
    (same : (addend : ℤ) ≡ amount [ZMOD range.span]) : Adds reg amount range controls left where
  width := performs.width
  exists_place := ⟨_, performs.bijOn, fun index below =>
    ⟨StateVector.shifts_addIndex same, performs.represented index below⟩⟩

theorem represented_add_add (first : Performs reg (.add addend range controls) left)
    (second : Performs left (.add addend' range controls) last) {index : BasisIndex}
    (below : index < 2 ^ reg.width) :
    last.represented (addIndex (addend + addend') range (maskOf controls) index) =
      reg.represented index := by
  obtain ⟨-, inside, apart⟩ := first.accepts
  have free := StateVector.maskOf_and_mask fun control listed => (apart control listed).2
  rw [← StateVector.addIndex_addIndex inside free]
  exact first.represented_next second below

end Performs

/-- When a controlled addition to a range returns, and where it moves the basis states
with all controls set.  A subtraction takes it back, and two additions are one, of the
sum of the operands. -/
theorem controlled_addition (reachable : reg.Reachable) (nonempty : range.length ≠ 0) :
    (∀ addend, (∃ left, (add addend range controls).runOn reg = (.ok (), left)) ↔
      Expands reg [.arithmetic] ∧ (range.stop ≤ reg.width ∧
        ∀ control ∈ controls, control < reg.width ∧ range.contains control = false) ∧
        ∃ index < 2 ^ reg.width, reg.represented index ≠ 0) ∧
    (∀ addend left, (add addend range controls).runOn reg = (.ok (), left) →
      Adds reg addend range controls left ∧
      (addend < indexSpan → ∃ back, (subtract addend range controls).runOn left = (.ok (), back) ∧
        back.width = reg.width ∧
        ∀ index < 2 ^ reg.width, back.represented index = reg.represented index) ∧
      ∀ addend', ∃ last once, (add addend' range controls).runOn left = (.ok (), last) ∧
        (add ((addend + addend') % indexSpan) range controls).runOn reg = (.ok (), once) ∧
        last.width = once.width ∧
        ∀ index < 2 ^ reg.width, last.represented index = once.represented index) ∧
    ∀ subtrahend left, subtrahend < indexSpan →
      (subtract subtrahend range controls).runOn reg = (.ok (), left) →
        Adds reg (-subtrahend) range controls left := by
  have sound := reachable.sound
  have reduced (number : ℕ) : ((number % range.span : ℕ) : ℤ) ≡ number [ZMOD range.span] :=
    Int.natCast_modEq_iff.mpr (Nat.mod_modEq _ _)
  have narrow {addend : ℕ} {left : Register ℝ}
      (performs : Performs reg (.add addend range controls) left) :
      range.length ≤ BasisIndex.maxWidth :=
    (sound.length_lt_wordBits performs.expands.dense performs.accepts.2.1).le.trans (by decide)
  refine ⟨fun addend => ?_, fun addend left run => ?_, fun subtrahend left word run => ?_⟩
  · rw [exists_congr fun _ => sound.runOn_add_eq_ok nonempty addend, sound.exists_reversible_iff]
    exact and_congr_right' (and_congr_left' (and_iff_right nonempty))
  · have first := sound.performs ((sound.runOn_add_eq_ok nonempty addend).mp run)
    refine ⟨first.adds (reduced addend), fun word => ?_, fun addend' => ?_⟩
    · obtain ⟨back, ran, second⟩ := first.exists_next
        (.add (complement addend % range.span) range controls) first.accepts
      refine ⟨back, (first.sound.runOn_add_eq_ok nonempty _).mpr ran,
        second.width.trans first.width, fun index below => ?_⟩
      have restored := first.represented_add_add second below
      rwa [StateVector.addIndex_congr (add_complement_modEq (narrow first) word.le),
        StateVector.addIndex_zero] at restored
    · obtain ⟨last, ran, second⟩ := first.exists_next
        (.add (addend' % range.span) range controls) first.accepts
      obtain ⟨once, ranOnce, both⟩ := first.exists_instead sound
        (.add ((addend + addend') % indexSpan % range.span) range controls) first.accepts
      refine ⟨last, once, (first.sound.runOn_add_eq_ok nonempty _).mpr ran,
        (sound.runOn_add_eq_ok nonempty _).mpr ranOnce,
        (second.width.trans first.width).trans both.width.symm, fun image below => ?_⟩
      have divides : range.span ∣ indexSpan := Nat.pow_dvd_pow 2 (narrow first)
      have sum : (addend + addend') % indexSpan % range.span ≡
          addend % range.span + addend' % range.span [MOD range.span] :=
        ((Nat.mod_modEq _ _).trans ((Nat.mod_modEq _ _).of_dvd divides)).trans
          ((Nat.mod_modEq _ _).add (Nat.mod_modEq _ _)).symm
      -- every index is the place of one to which the sum has been added
      obtain ⟨index, inside, rfl⟩ := both.bijOn.surjOn below
      rw [both.represented index inside]
      change last.represented (addIndex _ range (maskOf controls) index) = _
      rw [StateVector.addIndex_congr sum]
      exact first.represented_add_add second inside
  · have performs := sound.performs ((sound.runOn_add_eq_ok nonempty _).mp run)
    exact performs.adds ((reduced _).trans (complement_modEq (narrow performs) word.le))

/-- Three is added to three in a range of two qubits and taken away again.  The greatest operand
takes one away. -/
theorem controlled_addition_three :
    let list : Array (Amplitude ℝ) := #[1, 0, 0, 0, 0, 0, 0, 1]
    ∃ fresh reg sum back last once difference : Register ℝ, create 3 0 exactConfig 0 = .ok fresh ∧
      (setAmplitudes list).runOn fresh = (.ok (), reg) ∧
      (add 3 ⟨0, 2⟩ [2]).runOn reg = (.ok (), sum) ∧
      (subtract 3 ⟨0, 2⟩ [2]).runOn sum = (.ok (), back) ∧
      (add (indexSpan - 1) ⟨0, 2⟩ [2]).runOn sum = (.ok (), last) ∧
      (add 2 ⟨0, 2⟩ [2]).runOn reg = (.ok (), once) ∧
      (subtract 3 ⟨0, 2⟩ [2]).runOn reg = (.ok (), difference) ∧
        sum.represented 6 = 1 ∧ sum.represented 0 = 1 ∧ back.represented 7 = 1 ∧
        last.represented 5 = once.represented 5 ∧
        difference.represented 4 = 1 ∧ difference.represented 0 = 1 := by
  intro list
  obtain ⟨fresh, reg, made, written, ready, width, config, factory, represented⟩ :=
    exists_ready_of_amplitudes 3 (by decide) list rfl
      ⟨1, by simp [list], Amplitude.one_ne_zero⟩
  have narrow : reg.width ≤ exactConfig.denseLimit := by
    rw [width]
    decide
  have bound (index : BasisIndex) (below : index < 2 ^ 3) : index < 2 ^ reg.width :=
    below.trans_eq (by rw [width])
  have nonempty : (QubitRange.mk 0 2).length ≠ 0 := by decide
  obtain ⟨returns, adds, subtracts⟩ := @controlled_addition reg ⟨0, 2⟩ [2] ready.reachable nonempty
  have operands : QubitRange.stop ⟨0, 2⟩ ≤ reg.width ∧
      ∀ control ∈ [2], control < reg.width ∧ QubitRange.contains ⟨0, 2⟩ control = false := by
    rw [width]
    decide
  have nonzero : reg.represented 7 ≠ 0 := by
    rw [represented 7 (by decide)]
    exact Amplitude.one_ne_zero
  have expands := expands_of_narrow config factory narrow [.arithmetic]
  have standing : ∃ index < 2 ^ reg.width, reg.represented index ≠ 0 :=
    ⟨7, bound 7 (by decide), nonzero⟩
  have placed {amount : ℤ} {left : Register ℝ} (adds : Adds reg amount ⟨0, 2⟩ [2] left) (addend : ℕ)
      (same : (addend : ℤ) ≡ amount [ZMOD 4]) (index image : BasisIndex) (below : index < 2 ^ 3)
      (found : addIndex addend ⟨0, 2⟩ (maskOf [2]) index = image) :
      left.represented image = list[index]?.getD 0 := by
    obtain ⟨place, -, carried⟩ := adds.exists_place
    obtain ⟨shifts, kept⟩ := carried index (bound index below)
    rw [← found, ← represented index below, ← kept, shifts.unique (StateVector.shifts_addIndex same)]
  obtain ⟨sum, added⟩ := (returns 3).mpr ⟨expands, operands, standing⟩
  obtain ⟨difference, taken⟩ := (returns (complement 3)).mpr ⟨expands, operands, standing⟩
  obtain ⟨adds, restores, joins⟩ := adds 3 sum added
  obtain ⟨back, undone, -, same⟩ := restores (by decide)
  obtain ⟨last, once, next, direct, -, joined⟩ := joins (indexSpan - 1)
  have subtracts := subtracts 3 difference (by decide) taken
  refine ⟨fresh, reg, sum, back, last, once, difference, made, written, added, undone, next, direct,
    taken, ?_, ?_, ?_, ?_, ?_, ?_⟩
  · exact placed adds 3 rfl 7 6 (by decide) rfl
  · exact placed adds 3 rfl 0 0 (by decide) rfl
  · exact (same 7 (bound 7 (by decide))).trans (represented 7 (by decide))
  · exact joined 5 (bound 5 (by decide))
  · exact placed subtracts 1 rfl 7 4 (by decide) rfl
  · exact placed subtracts 1 rfl 0 0 (by decide) rfl

end AmplitudeTree.Register
