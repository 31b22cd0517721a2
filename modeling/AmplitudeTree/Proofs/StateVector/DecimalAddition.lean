import AmplitudeTree.Proofs.StateVector.Reversible

/-!
# Decimal addition on state vectors

A decimal range holds a number if every four of its qubits hold the digit at their place, and none if
some four hold more than nine.  Addition, with or without a carry qubit at the top, moves every basis
state whose range holds a number to the one that holds the sum, and leaves the other ones where they
are.  So adding a complement takes it back.
-/

namespace AmplitudeTree.StateVector

variable {v : StateVector ℝ} {range : QubitRange} {digits raw value carry : ℕ} {index : BasisIndex}

/-! ## Digits -/

def digitRange (range : QubitRange) (place : ℕ) : QubitRange := ⟨range.start + 4 * place, 4⟩

structure HoldsDecimal (range : QubitRange) (digits : ℕ) (index : BasisIndex) (value : ℕ) : Prop where
  below : value < 10 ^ digits
  digit : ∀ place < digits, (digitRange range place).read index = value / 10 ^ place % 10

/-- Four qubits of a decimal range hold no digit. -/
def HoldsInvalid (range : QubitRange) (digits : ℕ) (index : BasisIndex) : Prop :=
  ∃ place < digits, 9 < (digitRange range place).read index

/-- What stands for a number has the digits of this number. -/
theorem decodeDecimal_eq_some_iff : decodeDecimal digits raw = some value ↔
    value < 10 ^ digits ∧ ∀ place < digits, raw / 16 ^ place % 16 = value / 10 ^ place % 10 := by
  induction digits generalizing raw value with
  | zero => simp [decodeDecimal, eq_comm]
  | succ digits ih =>
      rw [decodeDecimal, Option.bind_eq_some_iff, Nat.forall_lt_succ_left]
      simp only [ih, Option.ite_none_right_eq_some, Option.some.injEq, pow_succ',
        ← Nat.div_div_eq_div_mul, pow_zero, Nat.div_one]
      constructor
      · rintro ⟨rest, ⟨below, held⟩, digit, rfl⟩
        have high : (rest * 10 + raw % 16) / 10 = rest := by omega
        refine ⟨by omega, by omega, ?_⟩
        rwa [high]
      · rintro ⟨below, last, held⟩
        exact ⟨value / 10, ⟨Nat.div_lt_of_lt_mul below, held⟩, by omega, by omega⟩

/-- What stands for no number has a digit above nine. -/
theorem decodeDecimal_eq_none_iff :
    decodeDecimal digits raw = none ↔ ∃ place < digits, 9 < raw / 16 ^ place % 16 := by
  induction digits generalizing raw with
  | zero => simp [decodeDecimal]
  | succ digits ih =>
      rw [decodeDecimal, Nat.exists_lt_succ_left]
      simp only [pow_succ', ← Nat.div_div_eq_div_mul, pow_zero, Nat.div_one, ← ih]
      cases decodeDecimal digits (raw / 16) with
      | none => simp
      | some rest => simp

theorem read_digitRange (length : range.length = 4 * digits) {place : ℕ} (below : place < digits)
    (index : BasisIndex) :
    (digitRange range place).read index = range.read index / 16 ^ place % 16 := by
  have power : 16 ^ place = 2 ^ (4 * place) := by
    rw [pow_mul]
    rfl
  apply Nat.eq_of_testBit_eq
  intro q
  rw [power, show 16 = 2 ^ 4 from rfl, Nat.testBit_mod_two_pow, ← Nat.shiftRight_eq_div_pow,
    Nat.testBit_shiftRight, QubitRange.testBit_read, QubitRange.testBit_read]
  change (decide (q < 4) && index.testBit (range.start + 4 * place + q)) = _
  by_cases inside : q < 4
  · have within : 4 * place + q < range.length := by omega
    rw [decide_eq_true within, Bool.true_and, Nat.add_assoc]
  · rw [decide_eq_false inside, Bool.false_and, Bool.false_and]

theorem holdsDecimal_iff (length : range.length = 4 * digits) :
    HoldsDecimal range digits index value ↔
      decodeDecimal digits (range.read index) = some value := by
  rw [decodeDecimal_eq_some_iff]
  constructor
  · rintro ⟨below, digit⟩
    refine ⟨below, fun place inside => ?_⟩
    rw [← read_digitRange length inside, digit place inside]
  · rintro ⟨below, digit⟩
    refine ⟨below, fun place inside => ?_⟩
    rw [read_digitRange length inside, digit place inside]

theorem holdsInvalid_iff (length : range.length = 4 * digits) :
    HoldsInvalid range digits index ↔ decodeDecimal digits (range.read index) = none := by
  rw [decodeDecimal_eq_none_iff]
  refine exists_congr fun place => and_congr_right fun inside => ?_
  rw [read_digitRange length inside]

theorem HoldsInvalid.length_ne_zero (invalid : HoldsInvalid range digits index)
    (length : range.length = 4 * digits) : range.length ≠ 0 := by
  obtain ⟨place, below, -⟩ := invalid
  omega

/-- A range holds the digits of a number unless four of its qubits hold none. -/
theorem exists_holdsDecimal_iff (length : range.length = 4 * digits) :
    (∃ value, HoldsDecimal range digits index value) ↔ ¬ HoldsInvalid range digits index := by
  rw [holdsInvalid_iff length, ← Ne, Option.ne_none_iff_exists']
  exact exists_congr fun value => holdsDecimal_iff length

/-! ## Sums -/

section Sums

variable (length : range.length = 4 * digits) (addend : ℕ)
include length

theorem holdsDecimal_addDecimalIndex (holds : HoldsDecimal range digits index value) :
    HoldsDecimal range digits (addDecimalIndex addend digits range index)
      ((value + addend) % 10 ^ digits) := by
  have lawful := Code.lawful_decimal length.symm
  have below : (value + addend) % 10 ^ digits < 10 ^ digits := Nat.mod_lt _ lawful.span_pos
  have encoded : encodeDecimal digits ((value + addend) % 10 ^ digits) < range.span :=
    lawful.encode_lt below
  rw [holdsDecimal_iff length] at holds ⊢
  rw [addDecimalIndex, holds]
  dsimp only
  rw [QubitRange.read_write encoded, Code.decodeDecimal_encodeDecimal below]

theorem addDecimalIndex_of_holdsInvalid (invalid : HoldsInvalid range digits index) :
    addDecimalIndex addend digits range index = index := by
  rw [addDecimalIndex, (holdsInvalid_iff length).mp invalid]

/-- The digits hold the lower part of the sum and the carry qubit tells whether there is more. -/
theorem holdsDecimal_addDecimalCarryIndex (outside : range.contains carry = false)
    (holds : HoldsDecimal range digits index value) :
    let total := ((index.testBit carry).toNat * 10 ^ digits + value + addend) % (2 * 10 ^ digits)
    HoldsDecimal range digits (addDecimalCarryIndex addend digits range carry index)
        (total % 10 ^ digits) ∧
      ((addDecimalCarryIndex addend digits range carry index).testBit carry = true ↔
        10 ^ digits ≤ total) := by
  intro total
  have lawful := Code.lawful_decimal length.symm
  have below : total < 2 * 10 ^ digits := Nat.mod_lt _ (Nat.mul_pos two_pos lawful.span_pos)
  have stores := lawful.stores_write outside index below
  have wide : value + (if index.bit carry then 10 ^ digits else 0) + addend =
      (index.testBit carry).toNat * 10 ^ digits + value + addend := by
    cases set : index.testBit carry with
    | false => simp [BasisIndex.bit, set]
    | true => simp [BasisIndex.bit, set, Nat.add_comm value]
  have place : addDecimalCarryIndex addend digits range carry index =
      ((Code.decimal digits).wide range carry).write index total := by
    rw [addDecimalCarryIndex, (holdsDecimal_iff length).mp holds]
    dsimp only
    rw [wide]
    rfl
  rw [place, holdsDecimal_iff length, stores.carried, decide_eq_true_eq]
  exact ⟨stores.number, Iff.rfl⟩

theorem addDecimalCarryIndex_of_holdsInvalid (invalid : HoldsInvalid range digits index) :
    addDecimalCarryIndex addend digits range carry index = index := by
  rw [addDecimalCarryIndex, (holdsInvalid_iff length).mp invalid]

end Sums

/-! ## Taking back -/

/-- Additions that are accepted and negate nothing are taken back by a complement. -/
theorem ReversibleCall.run_and_back (size : v.amplitudes.size = 2 ^ v.width)
    {calls : ℕ → ReversibleCall} {accepted : Prop} {span : ℕ}
    (accepts : ∀ addend, (calls addend).Accepts v.width ↔ accepted)
    (plain : ∀ addend index, (calls addend).negates index = false)
    (restores : accepted → ∀ {addend complement}, (addend + complement) % span = 0 →
      ∀ index, (calls complement).place ((calls addend).place index) = index) (addend : ℕ) :
    ((∃ v', (calls addend).run v = .ok v') ↔ accepted) ∧
      ∀ v', (calls addend).run v = .ok v' →
        v.Rearranges v' (calls addend).place (fun _ => false) ∧
        ∀ complement, (addend + complement) % span = 0 → (calls complement).run v' = .ok v := by
  refine ⟨⟨?_, fun given => ⟨_, run_eq_ok.mpr ⟨(accepts addend).mpr given, rfl⟩⟩⟩, ?_⟩
  · rintro ⟨v', ran⟩
    exact (accepts addend).mp (run_eq_ok.mp ran).1
  · intro v' ran
    obtain ⟨taken, rfl⟩ := run_eq_ok.mp ran
    have given := (accepts addend).mp taken
    refine ⟨?_, fun complement back => ?_⟩
    · rw [← funext (plain addend)]
      exact rearranges_result size taken
    · exact run_back _ _ size taken ((accepts complement).mpr given) (plain _) (plain _)
        (restores given back)

/-- A decimal addition returns if the range and its carry are apart.  It moves every basis state
with the digits of a number to the one with the digits of the sum; one with a digit above nine
stays.  A complement restores the vector. -/
theorem decimal_addition_permutes (size : v.amplitudes.size = 2 ^ v.width) (nonempty : digits ≠ 0)
    (length : range.length = 4 * digits) (addend : ℕ) :
    (∀ index, (∃ value, HoldsDecimal range digits index value) ↔
      ¬ HoldsInvalid range digits index) ∧
    (((∃ v', v.addDecimal addend range = .ok v') ↔ range.stop ≤ v.width) ∧
      (∀ v', v.addDecimal addend range = .ok v' →
        v.Rearranges v' (addDecimalIndex addend digits range) (fun _ => false) ∧
        ∀ complement, (addend + complement) % 10 ^ digits = 0 →
          v'.addDecimal complement range = .ok v) ∧
      ∀ index : BasisIndex,
        (∀ value, HoldsDecimal range digits index value →
          HoldsDecimal range digits (addDecimalIndex addend digits range index)
            ((value + addend) % 10 ^ digits)) ∧
        (HoldsInvalid range digits index → addDecimalIndex addend digits range index = index) ∧
        ∀ q, range.contains q = false →
          (addDecimalIndex addend digits range index).testBit q = index.testBit q) ∧
    ∀ carry, ((∃ v', v.addDecimalCarry addend range carry = .ok v') ↔ Carried range carry v.width) ∧
      (∀ v', v.addDecimalCarry addend range carry = .ok v' →
        v.Rearranges v' (addDecimalCarryIndex addend digits range carry) (fun _ => false) ∧
        ∀ complement, (addend + complement) % (2 * 10 ^ digits) = 0 →
          v'.addDecimalCarry complement range carry = .ok v) ∧
      ∀ index : BasisIndex,
        (∀ value, HoldsDecimal range digits index value → range.contains carry = false →
          let total := ((index.testBit carry).toNat * 10 ^ digits + value + addend) %
            (2 * 10 ^ digits)
          HoldsDecimal range digits (addDecimalCarryIndex addend digits range carry index)
              (total % 10 ^ digits) ∧
            ((addDecimalCarryIndex addend digits range carry index).testBit carry = true ↔
              10 ^ digits ≤ total)) ∧
        (HoldsInvalid range digits index →
          addDecimalCarryIndex addend digits range carry index = index) ∧
        ∀ q, range.contains q = false → q ≠ carry →
          (addDecimalCarryIndex addend digits range carry index).testBit q = index.testBit q := by
  have lawful := Code.lawful_decimal length.symm
  have some : range.length ≠ 0 := by omega
  have whole : range.length % 4 = 0 := by omega
  have count : range.length / 4 = digits := by omega
  refine ⟨fun index => exists_holdsDecimal_iff length, ?_, fun carry => ?_⟩
  · have place (addend : ℕ) :
        (ReversibleCall.addDecimal addend range).place = addDecimalIndex addend digits range := by
      rw [ReversibleCall.place, count]
    have accepts (addend : ℕ) :
        (ReversibleCall.addDecimal addend range).Accepts v.width ↔ range.stop ≤ v.width :=
      ⟨fun accepts => accepts.2.1, fun inside => ⟨some, inside, whole⟩⟩
    have restores (inside : range.stop ≤ v.width) {addend complement : ℕ}
        (back : (addend + complement) % 10 ^ digits = 0) (index : BasisIndex) :
        (ReversibleCall.addDecimal complement range).place
          ((ReversibleCall.addDecimal addend range).place index) = index := by
      rw [place, place, Code.addDecimalIndex_eq, Code.addDecimalIndex_eq]
      exact (lawful.narrow inside (Nat.zero_and _)).add_back back index
    obtain ⟨returns, moves⟩ :=
      ReversibleCall.run_and_back size accepts (fun _ _ => rfl) restores addend
    rw [place] at moves
    refine ⟨returns, moves, fun index => ⟨?_, ?_, ?_⟩⟩
    · exact fun value holds => holdsDecimal_addDecimalIndex length addend holds
    · exact addDecimalIndex_of_holdsInvalid length addend
    · intro q outside
      rw [Code.addDecimalIndex_eq]
      exact (lawful.narrow_writesOnly 0).testBit_add lawful.span_pos _ _
        (Bool.eq_false_iff.mp outside)
  · have place (addend : ℕ) : (ReversibleCall.addDecimalCarry addend range carry).place =
        addDecimalCarryIndex addend digits range carry := by
      rw [ReversibleCall.place, count]
    have accepts (addend : ℕ) : (ReversibleCall.addDecimalCarry addend range carry).Accepts v.width ↔
        Carried range carry v.width :=
      ⟨fun accepts => accepts.1, fun carried => ⟨carried, whole⟩⟩
    have restores (carried : Carried range carry v.width) {addend complement : ℕ}
        (back : (addend + complement) % (2 * 10 ^ digits) = 0) (index : BasisIndex) :
        (ReversibleCall.addDecimalCarry complement range carry).place
          ((ReversibleCall.addDecimalCarry addend range carry).place index) = index := by
      rw [place, place, Code.addDecimalCarryIndex_eq, Code.addDecimalCarryIndex_eq]
      exact (lawful.wide carried.outside carried.inside carried.below).add_back back index
    obtain ⟨returns, moves⟩ :=
      ReversibleCall.run_and_back size accepts (fun _ _ => rfl) restores addend
    rw [place] at moves
    refine ⟨returns, moves, fun index => ⟨?_, ?_, ?_⟩⟩
    · exact fun value holds outside =>
        holdsDecimal_addDecimalCarryIndex length addend outside holds
    · exact addDecimalCarryIndex_of_holdsInvalid length addend
    · intro q outside different
      rw [Code.addDecimalCarryIndex_eq]
      exact lawful.wide_writesOnly.testBit_add (Nat.mul_pos two_pos lawful.span_pos) _ _
        (not_or.mpr ⟨Bool.eq_false_iff.mp outside, different⟩)

/-- Five is added to seven and to no digit, without and with a carry, and taken
back as its complement. -/
theorem decimal_addition_five :
    let v : StateVector ℝ :=
      ⟨5, Array.ofFn fun index : Fin 32 => ⟨(index : ℕ), 0⟩, .ofSeed 0, .all⟩
    v.amplitudes.size = 2 ^ v.width ∧ 1 ≠ 0 ∧ QubitRange.length ⟨0, 4⟩ = 4 * 1 ∧
      (∃ sum, v.addDecimal 5 ⟨0, 4⟩ = .ok sum ∧ sum.amplitudeD 2 = ⟨7, 0⟩ ∧
        sum.amplitudeD 10 = ⟨10, 0⟩ ∧ sum.addDecimal 5 ⟨0, 4⟩ = .ok v) ∧
      ∃ sum, v.addDecimalCarry 5 ⟨0, 4⟩ 4 = .ok sum ∧ sum.amplitudeD 18 = ⟨7, 0⟩ ∧
        sum.amplitudeD 26 = ⟨26, 0⟩ ∧ sum.addDecimalCarry 15 ⟨0, 4⟩ 4 = .ok v := by
  intro v
  have size : v.amplitudes.size = 2 ^ v.width := Array.size_ofFn
  have stored (index : ℕ) (below : index < 32) : v.amplitudeD index = ⟨index, 0⟩ := by
    simp [v, amplitudeD, below]
  obtain ⟨-, ⟨returns, moves, -⟩, carried⟩ :=
    @decimal_addition_permutes v ⟨0, 4⟩ 1 size one_ne_zero rfl 5
  obtain ⟨returnsCarry, movesCarry, -⟩ := carried 4
  refine ⟨size, one_ne_zero, rfl, ?_, ?_⟩
  · have places : addDecimalIndex 5 1 ⟨0, 4⟩ 7 = 2 ∧ addDecimalIndex 5 1 ⟨0, 4⟩ 10 = 10 := by decide
    obtain ⟨sum, ran⟩ := returns.mpr (by decide)
    obtain ⟨⟨-, -, moved⟩, back⟩ := moves sum ran
    refine ⟨sum, ran, ?_, ?_, back 5 (by decide)⟩
    · simpa [stored, places] using moved 7 (by rw [size]; decide)
    · simpa [stored, places] using moved 10 (by rw [size]; decide)
  · have places : addDecimalCarryIndex 5 1 ⟨0, 4⟩ 4 7 = 18 ∧
        addDecimalCarryIndex 5 1 ⟨0, 4⟩ 4 26 = 26 := by decide
    obtain ⟨sum, ran⟩ := returnsCarry.mpr ⟨by decide, by decide, by decide, rfl⟩
    obtain ⟨⟨-, -, moved⟩, back⟩ := movesCarry sum ran
    refine ⟨sum, ran, ?_, ?_, back 15 (by decide)⟩
    · simpa [stored, places] using moved 7 (by rw [size]; decide)
    · simpa [stored, places] using moved 26 (by rw [size]; decide)

end AmplitudeTree.StateVector
