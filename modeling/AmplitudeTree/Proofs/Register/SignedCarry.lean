import AmplitudeTree.Proofs.Register.Carry
import AmplitudeTree.Proofs.StateVector.Signed

/-!
# Signed addition with carry

An addition with carry in two's complement leaves the right sum and the right carry.  The basis states
that it negates are those that overflow, unless a carry is added to the greatest number: then it
negates those that do not.
-/

namespace AmplitudeTree.Register

open StateVector (Code Inexpressible ReversibleCall signed)

variable {reg left : Register ℝ} {range : QubitRange} {carry : ℕ} {overflow : Option ℕ}

theorem calls_addSignedCarry (range : QubitRange) (overflow : Option ℕ) (carry : ℕ)
    (addend : Bool → ℕ) :
    Calls range carry (fun set => addSignedCarry (addend set) range overflow carry)
      fun set => .addSignedCarry (addend set % (2 * range.span)) range overflow carry :=
  fun _ _ sound prepared =>
    prepared.runOn_withArithmetic sound
      (fun addend v => v.addSignedCarry addend range overflow carry)
      (Nat.mod_lt _ (Nat.mul_pos two_pos range.span_pos)) _

/-- Addition with carry leaves the sum and its carry.  It negates the basis states that overflow,
where the overflow qubit is set if there is one; but with the carry set and the greatest operand it
negates the other ones. -/
theorem signed_with_carry (ready : reg.Ready) (nonempty : range.length ≠ 0) (addend : ℕ)
    (run : (addSignedWithCarry addend range overflow carry).runOn reg = (.ok (), left)) :
    ∃ set measured place negates, (measure carry).runOn reg = (.ok set, measured) ∧
      Continues reg carry set place negates left ∧
      ∀ index : BasisIndex,
        let value := range.read index
        let summand := addend % range.span
        let sum := value + summand + set.toNat
        (Code.binary range.length).Stores range carry index (sum % range.span)
          (decide (range.span ≤ sum)) (place index) ∧
        (negates index = true ↔
          Xor (Inexpressible range.length
              (signed range.length value + signed range.length summand + set.toNat))
            (set = true ∧ summand + 1 = 2 ^ (range.length - 1)) ∧
          ∀ qubit ∈ overflow, index.testBit qubit = true) := by
  obtain ⟨prepared, set, measured, measures, accepts, continues⟩ :=
    ready.physical.onCarry_continues nonempty (calls_addSignedCarry range overflow carry _) run
  refine ⟨set, measured, _, _, measures, continues, fun index => ?_⟩
  intro value summand sum
  have outside := prepared.carried.outside
  have below : value < range.span := range.read_lt index
  have below' : summand < range.span := Nat.mod_lt _ range.span_pos
  have once := Bool.toNat_le set
  have fits : (summand + set.toNat) % (2 * range.span) = summand + set.toNat :=
    Nat.mod_eq_of_lt (by omega)
  have stores := @Code.Lawful.stores_add _ range carry (Code.lawful_binary range.length) outside index
    value (summand + set.toNat) rfl (show value + (summand + set.toNat) < 2 * range.span by omega)
  rw [← Nat.add_assoc, ← Code.addCarryIndex_eq] at stores
  dsimp only [ReversibleCall.place, ReversibleCall.negates]
  rw [fits]
  refine ⟨stores, ?_⟩
  have number : range.read (StateVector.addCarryIndex (summand + set.toNat) range carry
      (index.clear (.power carry))) = sum % range.span := Option.some.inj stores.number
  rw [number, QubitRange.read_clear_power outside, Bool.and_eq_true]
  refine and_congr (StateVector.overflows_carry_iff nonempty below below' set) ?_
  cases overflow with
  | none => exact iff_of_true rfl nofun
  | some qubit =>
      obtain ⟨-, -, different⟩ := accepts.2 qubit rfl
      have kept : (index.clear (.power carry)).bit qubit = index.testBit qubit := by
        rw [BasisIndex.bit, BasisIndex.testBit_clear_power, Function.update_of_ne different]
      rw [Option.all_some, kept]
      simp

/-- One and a carry are added to zero in a range of two qubits; no basis state is negated. -/
theorem signed_with_carry_two :
    let list : Array (Amplitude ℝ) := #[0, 0, 0, 0, 1, 0, 0, 0, 0, 0, 0, 0, 1, 0, 0, 0]
    ∃ fresh reg left : Register ℝ, create 4 0 exactConfig 0 = .ok fresh ∧
      (setAmplitudes list).runOn fresh = (.ok (), reg) ∧
      (addSignedWithCarry 1 ⟨0, 2⟩ (some 3) 2).runOn reg = (.ok (), left) ∧
        Inexpressible 2 (signed 2 0 + signed 2 1 + 1) ∧
        left.represented 2 ≠ 0 ∧ left.represented 10 = left.represented 2 := by
  intro list
  obtain ⟨fresh, reg, made, written, ready, width, config, factory, represented⟩ :=
    exists_ready_of_amplitudes 4 (by decide) list rfl
      ⟨1, by simp [list], mt (Amplitude.toComplex_inj 1 0).mpr one_ne_zero⟩
  have narrow : reg.width ≤ exactConfig.denseLimit := by
    rw [width]
    decide
  have bound (index : BasisIndex) (below : index < 2 ^ 4) : index < 2 ^ reg.width :=
    below.trans_eq (by rw [width])
  have carried : StateVector.Carried ⟨0, 2⟩ 2 reg.width := by
    rw [width]
    exact ⟨by decide, by decide, by decide, rfl⟩
  have free : ∀ qubit ∈ some 3, qubit < reg.width ∧ QubitRange.contains ⟨0, 2⟩ qubit = false ∧
      qubit ≠ 2 := by
    rintro qubit ⟨⟩
    exact ⟨by rw [width]; decide, rfl, by decide⟩
  obtain ⟨left, run⟩ : ∃ left,
      (addSignedWithCarry 1 ⟨0, 2⟩ (some 3) 2).runOn reg = (.ok (), left) :=
    ready.physical.exists_onCarry (prepared_of_narrow config factory narrow carried)
      (checkQubit_eq_ok.mpr (free 3 rfl).1) (accepts_of_narrow factory narrow)
      (calls_addSignedCarry ⟨0, 2⟩ (some 3) 2 _) fun _ => ⟨carried, free⟩
  obtain ⟨set, _, place, negates, -, continues, stores⟩ :=
    signed_with_carry ready (show (⟨0, 2⟩ : QubitRange).length ≠ 0 by decide) 1 run
  obtain rfl : set = true := continues.set_eq fun index below some => by
    rw [width] at below
    rw [represented index below] at some
    interval_cases index <;> first | rfl | exact absurd rfl some
  have beyond : Inexpressible 2 (signed 2 0 + signed 2 1 + 1) := Or.inr (by decide)
  have lawful := StateVector.Code.lawful_binary 2
  have clearPlace : place 4 = 2 := (stores 4).1.eq_write lawful
  have setPlace : place 12 = 10 := (stores 12).1.eq_write lawful
  have clearSign : ¬ negates 4 = true := fun negated =>
    absurd (((stores 4).2.mp negated).2 3 rfl) (by decide)
  have setSign : ¬ negates 12 = true := fun negated =>
    xor_iff_iff_not.mp ((stores 12).2.mp negated).1 |>.mp beyond ⟨rfl, rfl⟩
  obtain ⟨factor, unit, kept⟩ := continues.kept
  have clearKept := kept 4 (bound 4 (by decide)) rfl
  have setKept := kept 12 (bound 12 (by decide)) rfl
  rw [clearPlace, if_neg clearSign] at clearKept
  rw [setPlace, if_neg setSign] at setKept
  have same : reg.represented 12 = reg.represented 4 := by
    rw [represented 12 (by decide), represented 4 (by decide)]
    rfl
  refine ⟨fresh, reg, left, made, written, run, beyond, ?_, ?_⟩
  · rw [clearKept, Ne, Amplitude.mul_eq_zero_iff_of_unit unit, represented 4 (by decide)]
    exact mt (Amplitude.toComplex_inj 1 0).mpr one_ne_zero
  · rw [setKept, clearKept, same]

end AmplitudeTree.Register
