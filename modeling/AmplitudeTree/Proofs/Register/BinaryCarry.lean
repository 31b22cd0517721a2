import AmplitudeTree.Proofs.Register.Carry

/-!
# Binary addition and subtraction with carry

A sum and a carry leave the sum in the range, modulo its span, and what is above the span in the carry
qubit.  A subtraction adds a complement of what is taken, which is between one and the span even where
the operand is zero and there is no borrow, or where the operand is all that the range can hold and
there is one: so the carry is set just in case there is no borrow.
-/

namespace AmplitudeTree.Register

open StateVector (Code ReversibleCall)

variable {reg left : Register ℝ} {range : QubitRange} {carry : ℕ}
  {extra : Register ℝ → Except (RegisterError ℝ) Unit} {addend : Bool → ℕ}

theorem calls_addCarry (range : QubitRange) (carry : ℕ) (addend : Bool → ℕ) :
    Calls range carry (fun set => addCarry (addend set) range carry)
      fun set => .addCarry (addend set % (2 * range.span)) range carry :=
  fun _ _ sound prepared =>
    prepared.runOn_withArithmetic sound (fun addend v => v.addCarry addend range carry)
      (Nat.mod_lt _ (Nat.mul_pos two_pos range.span_pos)) _

/-- A binary addition that depends on the measured carry, of a number that carries at most once. -/
theorem Sound.binary_relocates (sound : reg.Sound) (nonempty : range.length ≠ 0)
    (small : ∀ set, addend set ≤ range.span)
    (run : (onCarry range carry extra fun set => addCarry (addend set) range carry).runOn reg =
      (.ok (), left)) :
    carry < reg.width ∧ ∃ set measured place, (measure carry).runOn reg = (.ok set, measured) ∧
      Relocates measured carry set place (fun _ => false) left ∧
      ∀ index : BasisIndex, (Code.binary range.length).Stores range carry index
        ((range.read index + addend set) % range.span)
        (decide (range.span ≤ range.read index + addend set)) (place index) := by
  obtain ⟨prepared, set, measured, measures, -, relocates⟩ :=
    sound.onCarry_relocates nonempty (calls_addCarry range carry addend) run
  refine ⟨prepared.carried.below, set, measured, _, measures, relocates, fun index => ?_⟩
  have bound : range.read index < range.span := range.read_lt index
  have once : addend set ≤ range.span := small set
  have fits : addend set % (2 * range.span) = addend set := Nat.mod_eq_of_lt (by omega)
  have stores := @Code.Lawful.stores_add _ range carry (Code.lawful_binary range.length)
    prepared.carried.outside index (range.read index) (addend set) rfl
    (show range.read index + addend set < 2 * range.span by omega)
  dsimp only [ReversibleCall.place]
  rw [Code.addCarryIndex_eq, fits]
  exact stores

/-- Addition with carry and subtraction with borrow: the number and the carry that are left.  The
amplitudes with the measured carry are only relocated and, if unitary gates waited on some state,
brought to norm one. -/
theorem binary_with_carry (reachable : reg.Reachable) (nonempty : range.length ≠ 0) (operand : ℕ) :
    (∀ left, (addWithCarry operand range carry).runOn reg = (.ok (), left) →
      ∃ set measured place, (measure carry).runOn reg = (.ok set, measured) ∧
        Relocates measured carry set place (fun _ => false) left ∧
        (reg.Ready → Continues reg carry set place (fun _ => false) left) ∧
        ∀ index : BasisIndex,
          let sum := range.read index + operand % range.span + set.toNat
          (Code.binary range.length).Stores range carry index (sum % range.span)
            (decide (range.span ≤ sum)) (place index)) ∧
    ∀ left, (subtractWithBorrow operand range carry).runOn reg = (.ok (), left) →
      ∃ set measured place, (measure carry).runOn reg = (.ok set, measured) ∧
        Relocates measured carry set place (fun _ => false) left ∧
        (reg.Ready → Continues reg carry set place (fun _ => false) left) ∧
        ∀ index : BasisIndex,
          let value := range.read index
          let taken := operand % range.span + (!set).toNat
          (Code.binary range.length).Stores range carry index
            ((value + range.span - taken) % range.span) (decide (taken ≤ value)) (place index) := by
  have sound := reachable.sound
  have reduced : operand % range.span < range.span := Nat.mod_lt _ range.span_pos
  have most (set : Bool) : operand % range.span + set.toNat ≤ range.span := by
    have once := Bool.toNat_le set
    omega
  constructor
  · intro left run
    obtain ⟨inside, set, measured, place, measures, relocates, stores⟩ :=
      sound.binary_relocates nonempty most run
    refine ⟨set, measured, place, measures, relocates, fun ready => ?_, fun index => ?_⟩
    · exact relocates.continues (ready.physical.parityKept_measured inside measures)
    · have stored := stores index
      rw [← Nat.add_assoc] at stored
      exact stored
  · intro left run
    obtain ⟨inside, set, measured, place, measures, relocates, stores⟩ :=
      sound.binary_relocates nonempty (fun _ => Nat.sub_le _ _) run
    refine ⟨set, measured, place, measures, relocates, fun ready => ?_, fun index => ?_⟩
    · exact relocates.continues (ready.physical.parityKept_measured inside measures)
    · intro value taken
      obtain ⟨number, carries⟩ := complement_carries (most !set) value
      rw [← number, ← decide_eq_decide.mpr carries]
      exact stores index

/-- Three is added to two and to three in a range of two qubits, and taken away from
them with a borrow. -/
theorem binary_with_carry_three :
    let list : Array (Amplitude ℝ) := #[0, 0, 1, 1, 0, 0, 0, 0]
    ∃ fresh reg sum difference : Register ℝ, create 3 0 exactConfig 0 = .ok fresh ∧
      (setAmplitudes list).runOn fresh = (.ok (), reg) ∧
      (addWithCarry 3 ⟨0, 2⟩ 2).runOn reg = (.ok (), sum) ∧
      (subtractWithBorrow 3 ⟨0, 2⟩ 2).runOn reg = (.ok (), difference) ∧
        sum.represented 5 ≠ 0 ∧ sum.represented 6 ≠ 0 ∧
        difference.represented 2 ≠ 0 ∧ difference.represented 3 ≠ 0 := by
  intro list
  obtain ⟨fresh, reg, made, written, ready, width, config, factory, represented⟩ :=
    exists_ready_of_amplitudes 3 (by decide) list rfl
      ⟨1, by simp [list], mt (Amplitude.toComplex_inj 1 0).mpr one_ne_zero⟩
  have narrow : reg.width ≤ exactConfig.denseLimit := by
    rw [width]
    decide
  have bound (index : BasisIndex) (below : index < 2 ^ 3) : index < 2 ^ reg.width :=
    below.trans_eq (by rw [width])
  have carried : StateVector.Carried ⟨0, 2⟩ 2 reg.width := by
    rw [width]
    exact ⟨by decide, by decide, by decide, rfl⟩
  have returns (addend : Bool → ℕ) : ∃ left,
      (onCarry ⟨0, 2⟩ 2 noExtra fun set => addCarry (addend set) ⟨0, 2⟩ 2).runOn reg =
        (.ok (), left) :=
    ready.physical.exists_onCarry (prepared_of_narrow config factory narrow carried) rfl
      (accepts_of_narrow factory narrow) (calls_addCarry ⟨0, 2⟩ 2 addend) fun _ => carried
  have clear {set : Bool} {place : BasisIndex → BasisIndex} {left : Register ℝ}
      (continues : Continues reg 2 set place (fun _ => false) left) : set = false := by
    refine continues.set_eq fun index below some => ?_
    rw [width] at below
    rw [represented index below] at some
    interval_cases index <;> first | rfl | exact absurd rfl some
  obtain ⟨sum, added⟩ : ∃ left, (addWithCarry 3 ⟨0, 2⟩ 2).runOn reg = (.ok (), left) := returns _
  obtain ⟨difference, taken⟩ : ∃ left,
      (subtractWithBorrow 3 ⟨0, 2⟩ 2).runOn reg = (.ok (), left) := returns _
  have nonempty : (QubitRange.mk 0 2).length ≠ 0 := by decide
  obtain ⟨adds, subtracts⟩ := binary_with_carry ready.reachable nonempty 3
  obtain ⟨set, _, place, -, -, continues, stores⟩ := adds sum added
  obtain ⟨set', _, place', -, -, continues', stores'⟩ := subtracts difference taken
  specialize continues ready
  specialize continues' ready
  obtain rfl := clear continues
  obtain rfl := clear continues'
  have lawful := Code.lawful_binary 2
  have kept {place : BasisIndex → BasisIndex} {left : Register ℝ}
      (continues : Continues reg 2 false place (fun _ => false) left) (index image : BasisIndex)
      (below : index < 2 ^ 3) (one : list[index]?.getD 0 = 1) (found : index.testBit 2 = false)
      (placed : place index = image) : left.represented image ≠ 0 := by
    rw [← placed, Ne, continues.represented_place_eq_zero_iff (bound index below) found,
      represented index below, one]
    exact mt (Amplitude.toComplex_inj 1 0).mpr one_ne_zero
  refine ⟨fresh, reg, sum, difference, made, written, added, taken, ?_, ?_, ?_, ?_⟩
  · exact kept continues 2 5 (by decide) rfl rfl ((stores 2).eq_write lawful)
  · exact kept continues 3 6 (by decide) rfl rfl ((stores 3).eq_write lawful)
  · exact kept continues' 2 2 (by decide) rfl rfl ((stores' 2).eq_write lawful)
  · exact kept continues' 3 3 (by decide) rfl rfl ((stores' 3).eq_write lawful)

end AmplitudeTree.Register
