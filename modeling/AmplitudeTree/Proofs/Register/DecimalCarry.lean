import AmplitudeTree.Proofs.Register.Carry

/-!
# Decimal addition and subtraction with carry

A sum of decimal numbers and a carry leaves its lower digits in the range and what is above them in
the carry qubit.  A subtraction adds a complement instead.  It leaves the right digits, and a carry
that is set where there is no borrow, but also where the greatest number and a borrow are taken away
together: all digits stay then, and the borrow is lost.
-/

namespace AmplitudeTree.Register

open StateVector (Code ReversibleCall decodeDecimal)

variable {reg left : Register ℝ} {range : QubitRange} {carry digits : ℕ}
  {extra : Register ℝ → Except (RegisterError ℝ) Unit} {addend : Bool → ℕ}

theorem calls_addDecimalCarry (range : QubitRange) (carry : ℕ) (addend : Bool → ℕ) :
    Calls range carry (fun set => addDecimalCarry (addend set) range carry)
      fun set => .addDecimalCarry (addend set % (2 * decimalSpan range)) range carry :=
  fun set _ sound prepared =>
    prepared.runOn_withArithmetic sound (fun addend v => v.addDecimalCarry addend range carry)
      (mod_decimalSpan_lt (addend set) range) _

theorem decimalSpan_eq (length : range.length = 4 * digits) : decimalSpan range = 10 ^ digits := by
  rw [decimalSpan, length, Nat.mul_div_cancel_left _ (by decide)]

/-- A decimal addition that depends on the measured carry, of a number that carries at most once. -/
theorem Physical.decimal_continues (physical : reg.Physical) (nonempty : digits ≠ 0)
    (length : range.length = 4 * digits) (small : ∀ set, addend set ≤ 10 ^ digits)
    (run : (onCarry range carry extra fun set => addDecimalCarry (addend set) range carry).runOn reg =
      (.ok (), left)) :
    ∃ set measured place, (measure carry).runOn reg = (.ok set, measured) ∧
      Continues reg carry set place (fun _ => false) left ∧
      ∀ index value, decodeDecimal digits (range.read index) = some value →
        (Code.decimal digits).Stores range carry index ((value + addend set) % 10 ^ digits)
          (decide (10 ^ digits ≤ value + addend set)) (place index) := by
  have some : range.length ≠ 0 := by omega
  obtain ⟨prepared, set, measured, measures, -, continues⟩ :=
    physical.onCarry_continues some (calls_addDecimalCarry range carry addend) run
  refine ⟨set, measured, _, measures, continues, fun index value decodes => ?_⟩
  have lawful : (Code.decimal digits).Lawful range.length := Code.lawful_decimal length.symm
  have bound : value < 10 ^ digits := (lawful.of_decode (range.read_lt index) decodes).1
  have fits : addend set % (2 * decimalSpan range) = addend set := by
    rw [decimalSpan_eq length]
    have positive : 0 < 10 ^ digits := Nat.pow_pos (by decide)
    exact Nat.mod_eq_of_lt (by have := small set; omega)
  have count : range.length / 4 = digits := by omega
  have stores := @Code.Lawful.stores_add _ range carry lawful prepared.carried.outside index value
    (addend set) decodes (show value + addend set < 2 * 10 ^ digits by have := small set; omega)
  dsimp only [ReversibleCall.place]
  rw [Code.addDecimalCarryIndex_eq, fits, count]
  exact stores

/-- What is taken away is added as its complement.  All that the range can hold and one more counts
as the whole modulus. -/
theorem complement_of_taken {modulus taken : ℕ} (most : taken ≤ modulus) (value : ℕ) :
    (value + (modulus - taken % modulus)) % modulus = (value + modulus - taken) % modulus ∧
      decide (modulus ≤ value + (modulus - taken % modulus)) =
        decide (taken ≤ value ∨ taken = modulus) := by
  obtain below | rfl := most.lt_or_eq
  · obtain ⟨number, carries⟩ := complement_carries most value
    rw [Nat.mod_eq_of_lt below]
    exact ⟨number, decide_eq_decide.mpr (carries.trans (or_iff_left below.ne).symm)⟩
  · rw [Nat.mod_self, Nat.sub_zero, Nat.add_mod_right, Nat.add_sub_cancel]
    refine ⟨rfl, decide_eq_decide.mpr ?_⟩
    exact iff_of_true (Nat.le_add_left _ _) (Or.inr rfl)

/-- Addition with carry and subtraction with borrow: the number and the carry that are left.  If the
operand and the borrow are all that the range can hold and one more, the carry is set though there
is a borrow. -/
theorem decimal_with_carry (ready : reg.Ready) (nonempty : digits ≠ 0)
    (length : range.length = 4 * digits) (operand : ℕ) :
    (∀ left, (addDecimalWithCarry operand range carry).runOn reg = (.ok (), left) →
      ∃ set measured place, (measure carry).runOn reg = (.ok set, measured) ∧
        Continues reg carry set place (fun _ => false) left ∧
        ∀ index value, decodeDecimal digits (range.read index) = some value →
          let sum := value + operand % 10 ^ digits + set.toNat
          (Code.decimal digits).Stores range carry index (sum % 10 ^ digits)
            (decide (10 ^ digits ≤ sum)) (place index)) ∧
    ∀ left, (subtractDecimalWithBorrow operand range carry).runOn reg = (.ok (), left) →
      ∃ set measured place, (measure carry).runOn reg = (.ok set, measured) ∧
        Continues reg carry set place (fun _ => false) left ∧
        ∀ index value, decodeDecimal digits (range.read index) = some value →
          let taken := operand % 10 ^ digits + (!set).toNat
          (Code.decimal digits).Stores range carry index
            ((value + 10 ^ digits - taken) % 10 ^ digits)
            (decide (taken ≤ value ∨ taken = 10 ^ digits)) (place index) := by
  have positive : 0 < 10 ^ digits := Nat.pow_pos (by decide)
  have reduced : operand % 10 ^ digits < 10 ^ digits := Nat.mod_lt _ positive
  have span := decimalSpan_eq length
  constructor
  · intro left run
    have small (set : Bool) : operand % decimalSpan range + set.toNat ≤ 10 ^ digits := by
      have once := Bool.toNat_le set
      rw [span]
      omega
    obtain ⟨set, measured, place, measures, continues, stores⟩ :=
      ready.physical.decimal_continues nonempty length small run
    refine ⟨set, measured, place, measures, continues, fun index value decodes => ?_⟩
    have stored := stores index value decodes
    rw [span, ← Nat.add_assoc] at stored
    exact stored
  · intro left run
    have small (set : Bool) : decimalSpan range -
        (operand % decimalSpan range + (!set).toNat) % decimalSpan range ≤ 10 ^ digits := by
      rw [span]
      exact Nat.sub_le _ _
    obtain ⟨set, measured, place, measures, continues, stores⟩ :=
      ready.physical.decimal_continues nonempty length small run
    refine ⟨set, measured, place, measures, continues, fun index value decodes => ?_⟩
    have stored := stores index value decodes
    rw [span] at stored
    intro taken
    obtain ⟨number, reaches⟩ := complement_of_taken (show taken ≤ 10 ^ digits by
      have once := Bool.toNat_le (!set)
      omega) value
    rw [← number, ← reaches]
    exact stored

/-- Nine and a borrow are taken away from zero.  The digit stays, and the carry is set. -/
theorem decimal_with_carry_nine :
    ∃ reg left : Register ℝ, create 5 0 exactConfig 0 = .ok reg ∧
      (subtractDecimalWithBorrow 9 ⟨0, 4⟩ 4).runOn reg = (.ok (), left) ∧
        left.represented 16 ≠ 0 ∧ left.represented 0 = 0 := by
  obtain ⟨reg, made⟩ : ∃ reg, create 5 0 exactConfig 0 = .ok reg :=
    exists_create validate_exactConfig (by decide) rfl 0
  have ready : reg.Ready := .of_create rfl made
  have width : reg.width = 5 := (sound_of_create made rfl).2.2.1
  have narrow : reg.width ≤ exactConfig.denseLimit := by
    rw [width]
    decide
  have factory : reg.factory = .ofLimit exactConfig.denseLimit ∧ reg.config = exactConfig := by
    obtain ⟨_, _, _, rfl⟩ := eq_of_create made
    exact ⟨rfl, rfl⟩
  have amplitude (index : BasisIndex) (below : index < 2 ^ reg.width) :
      reg.represented index = if index = 0 then 1 else 0 :=
    represented_of_create made rfl (by decide) (width ▸ below)
  have carried : StateVector.Carried ⟨0, 4⟩ 4 reg.width := by
    rw [width]
    exact ⟨by decide, by decide, by decide, rfl⟩
  obtain ⟨left, run⟩ : ∃ left,
      (subtractDecimalWithBorrow 9 ⟨0, 4⟩ 4).runOn reg = (.ok (), left) :=
    ready.physical.exists_onCarry (prepared_of_narrow factory.2 factory.1 narrow carried) rfl
      (accepts_of_narrow factory.1 narrow) (calls_addDecimalCarry ⟨0, 4⟩ 4 _)
      fun _ => ⟨carried, rfl⟩
  obtain ⟨set, _, place, -, continues, stores⟩ :=
    (decimal_with_carry ready one_ne_zero rfl 9).2 left run
  have only (index : BasisIndex) (below : index < 2 ^ reg.width)
      (some : reg.represented index ≠ 0) : index = 0 := by
    rw [amplitude index below, ite_ne_right_iff] at some
    exact some.1
  obtain rfl : set = false := continues.set_eq fun index below some => by
    rw [only index below some]
    rfl
  have placed : place 0 = 16 :=
    (stores 0 0 rfl).eq_write (StateVector.Code.lawful_decimal rfl)
  have bound (index : BasisIndex) (below : index < 2 ^ 5) : index < 2 ^ reg.width :=
    below.trans_eq (by rw [width])
  refine ⟨reg, left, made, run, ?_, ?_⟩
  · rw [← placed, Ne, continues.represented_place_eq_zero_iff (bound 0 (by decide)) rfl,
      amplitude 0 (bound 0 (by decide)), if_pos rfl]
    exact mt (Amplitude.toComplex_inj 1 0).mpr one_ne_zero
  · by_contra some
    obtain ⟨index, below, -, present, found⟩ := continues.others 0 (bound 0 (by decide)) some
    rw [only index below present, placed] at found
    exact absurd found (by decide)

end AmplitudeTree.Register
