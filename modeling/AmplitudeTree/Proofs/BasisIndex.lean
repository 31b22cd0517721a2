import Mathlib.Data.Nat.Notation
import Mathlib.Logic.Function.Basic
import AmplitudeTree.BasisIndex

/-!
# The qubits of a basis index

A range of qubits can be written and read back, and writing touches no other qubit.
-/

namespace AmplitudeTree

namespace BasisIndex

variable {qubit width : ℕ}

theorem testBit_clear_power (index : BasisIndex) (qubit : ℕ) :
    (index.clear (.power qubit)).testBit = Function.update index.testBit qubit false := by
  funext q
  rw [clear, power, Nat.testBit_xor, Nat.testBit_and, Nat.testBit_two_pow]
  by_cases same : qubit = q
  · subst same
    simp
  · simp [same, Function.update_of_ne (Ne.symm same)]

theorem testBit_or_power (index : BasisIndex) (qubit : ℕ) :
    (index ||| .power qubit).testBit = Function.update index.testBit qubit true := by
  funext q
  rw [power, Nat.testBit_or, Nat.testBit_two_pow]
  by_cases same : qubit = q
  · subst same
    simp
  · simp [same, Function.update_of_ne (Ne.symm same)]

theorem clear_lt {index : BasisIndex} (bound : index < 2 ^ width) (mask : BasisIndex) :
    index.clear mask < 2 ^ width :=
  Nat.xor_lt_two_pow bound (Nat.lt_of_le_of_lt Nat.and_le_left bound)

theorem power_lt (below : qubit < width) : power qubit < 2 ^ width :=
  Nat.pow_lt_pow_right (by decide) below

theorem check_eq_ok {index : BasisIndex} :
    index.check width = .ok () ↔ (width < maxWidth → index < 2 ^ width) := by
  unfold check
  split <;> simp_all

theorem testBit_clear (index mask : BasisIndex) (q : ℕ) :
    (index.clear mask).testBit q = (index.testBit q && !mask.testBit q) := by
  rw [clear, Nat.testBit_xor, Nat.testBit_and]
  cases index.testBit q <;> cases mask.testBit q <;> rfl

theorem hasAll_iff {index mask : BasisIndex} :
    index.hasAll mask = true ↔ ∀ q, mask.testBit q = true → index.testBit q = true := by
  rw [hasAll, beq_iff_eq]
  constructor
  · intro same q set
    have bit := congrArg (Nat.testBit · q) same
    simpa [Nat.testBit_and, set] using bit
  · intro all
    apply Nat.eq_of_testBit_eq
    intro q
    rw [Nat.testBit_and]
    cases set : mask.testBit q with
    | true => rw [all q set, Bool.true_and]
    | false => rw [Bool.and_false]

theorem hasAll_zero (index : BasisIndex) : index.hasAll 0 = true := by
  simp [hasAll_iff]

theorem hasAll_or {index mask other : BasisIndex} :
    index.hasAll (mask ||| other) = true ↔ index.hasAll mask = true ∧ index.hasAll other = true := by
  simp only [hasAll_iff, Nat.testBit_or, Bool.or_eq_true, or_imp, forall_and]

theorem hasAll_power {index : BasisIndex} {qubit : ℕ} :
    index.hasAll (.power qubit) = true ↔ index.testBit qubit = true := by
  simp [hasAll_iff, power, Nat.testBit_two_pow]

/-- Two basis states of a register are equal if they agree on its qubits. -/
theorem eq_of_testBit {index other : BasisIndex} (bound : index < 2 ^ width)
    (bound' : other < 2 ^ width) (same : ∀ q, q < width → index.testBit q = other.testBit q) :
    index = other := by
  apply Nat.eq_of_testBit_eq
  intro q
  by_cases inside : q < width
  · exact same q inside
  · have high : 2 ^ width ≤ 2 ^ q := Nat.pow_le_pow_right (by decide) (Nat.not_lt.mp inside)
    rw [Nat.testBit_lt_two_pow (Nat.lt_of_lt_of_le bound high),
      Nat.testBit_lt_two_pow (Nat.lt_of_lt_of_le bound' high)]

theorem clear_power_of_testBit_eq_false {index : BasisIndex}
    (clear : index.testBit qubit = false) : index.clear (.power qubit) = index := by
  apply Nat.eq_of_testBit_eq
  intro q
  rw [testBit_clear_power, ← clear, Function.update_eq_self]

theorem eq_of_clear_power {index other : BasisIndex}
    (bits : index.testBit qubit = other.testBit qubit)
    (same : index.clear (.power qubit) = other.clear (.power qubit)) : index = other := by
  apply Nat.eq_of_testBit_eq
  intro q
  by_cases here : q = qubit
  · rw [here, bits]
  · have rest := congrArg (Nat.testBit · q) same
    simpa [testBit_clear_power, Function.update_of_ne here] using rest

theorem exists_clear_power {index : BasisIndex} (bound : index < 2 ^ width) (inside : qubit < width)
    (clear : index.testBit qubit = false) (value : Bool) :
    ∃ source : BasisIndex, source < 2 ^ width ∧ source.testBit qubit = value ∧
      source.clear (.power qubit) = index := by
  cases value with
  | false => exact ⟨index, bound, clear, clear_power_of_testBit_eq_false clear⟩
  | true =>
      refine ⟨index ||| .power qubit, Nat.or_lt_two_pow bound (power_lt inside), ?_, ?_⟩
      · rw [testBit_or_power, Function.update_self]
      · apply Nat.eq_of_testBit_eq
        intro q
        rw [testBit_clear_power, testBit_or_power, Function.update_idem, ← clear,
          Function.update_eq_self]

end BasisIndex

namespace QubitRange

variable {range other : QubitRange} {index value width q : ℕ}

theorem contains_iff : range.contains q = true ↔ range.start ≤ q ∧ q < range.stop := by
  simp [contains]

theorem contains_single {qubit : ℕ} : (single qubit).contains q = true ↔ q = qubit := by
  rw [contains_iff]
  change qubit ≤ q ∧ q < qubit + 1 ↔ q = qubit
  omega

theorem testBit_mask (range : QubitRange) (q : ℕ) : range.mask.testBit q = range.contains q := by
  rw [mask, span, Nat.testBit_shiftLeft, Nat.testBit_two_pow_sub_one, contains, stop]
  by_cases above : range.start ≤ q
  · simp only [above, decide_true, Bool.true_and, decide_eq_decide]
    omega
  · simp [above]

theorem span_pos (range : QubitRange) : 0 < range.span := Nat.two_pow_pos _

theorem read_lt (range : QubitRange) (index : BasisIndex) : range.read index < range.span := by
  rw [read_eq_mod]
  exact Nat.mod_lt _ range.span_pos

theorem testBit_read (range : QubitRange) (index : BasisIndex) (q : ℕ) :
    (range.read index).testBit q = (decide (q < range.length) && index.testBit (range.start + q)) := by
  rw [read_eq_mod, span, Nat.testBit_mod_two_pow, Nat.testBit_shiftRight]

/-- What a range holds depends on its own qubits only. -/
theorem read_congr {index' : BasisIndex}
    (same : ∀ q, range.contains q = true → index.testBit q = index'.testBit q) :
    range.read index = range.read index' := by
  apply Nat.eq_of_testBit_eq
  intro q
  rw [testBit_read, testBit_read]
  by_cases inside : q < range.length
  · rw [same _ (contains_iff.mpr ⟨Nat.le_add_right _ _, Nat.add_lt_add_left inside _⟩)]
  · rw [decide_eq_false inside, Bool.false_and, Bool.false_and]

theorem read_clear_power {qubit : ℕ} (outside : range.contains qubit = false)
    (index : BasisIndex) : range.read (index.clear (.power qubit)) = range.read index := by
  refine read_congr fun q inside => ?_
  have different : q ≠ qubit := by
    rintro rfl
    rw [outside] at inside
    cases inside
  rw [BasisIndex.testBit_clear_power, Function.update_of_ne different]

theorem testBit_shiftLeft_of_not_mem (below : value < range.span)
    (outside : range.contains q = false) : (value <<< range.start).testBit q = false := by
  rw [Nat.testBit_shiftLeft]
  by_cases above : range.start ≤ q
  · have beyond : range.length ≤ q - range.start := by
      by_contra within
      exact Bool.eq_false_iff.mp outside (contains_iff.mpr ⟨above, by rw [stop]; omega⟩)
    rw [Nat.testBit_lt_two_pow (Nat.lt_of_lt_of_le below (Nat.pow_le_pow_right (by decide) beyond)),
      Bool.and_false]
  · rw [decide_eq_false above, Bool.false_and]

theorem shiftLeft_lt (below : value < range.span) (inside : range.stop ≤ width) :
    value <<< range.start < 2 ^ width := by
  rw [Nat.shiftLeft_eq]
  calc value * 2 ^ range.start < range.span * 2 ^ range.start :=
        Nat.mul_lt_mul_of_pos_right below (Nat.two_pow_pos _)
    _ = 2 ^ range.stop := by rw [span, ← Nat.pow_add, stop, Nat.add_comm]
    _ ≤ 2 ^ width := Nat.pow_le_pow_right (by decide) inside

theorem testBit_write (below : value < range.span) (q : ℕ) :
    (range.write index value).testBit q =
      if range.contains q then value.testBit (q - range.start) else index.testBit q := by
  rw [write, Nat.testBit_or, BasisIndex.testBit_clear, testBit_mask]
  cases inside : range.contains q with
  | true => simp [Nat.testBit_shiftLeft, (contains_iff.mp inside).1]
  | false => simp [testBit_shiftLeft_of_not_mem below inside]

theorem testBit_write_of_not_mem (below : value < range.span) (outside : range.contains q = false) :
    (range.write index value).testBit q = index.testBit q := by
  rw [testBit_write below, outside, if_neg Bool.false_ne_true]

theorem read_write (below : value < range.span) : range.read (range.write index value) = value := by
  apply Nat.eq_of_testBit_eq
  intro q
  rw [testBit_read, testBit_write below]
  by_cases inside : q < range.length
  · rw [if_pos (contains_iff.mpr ⟨Nat.le_add_right _ _, Nat.add_lt_add_left inside _⟩),
      decide_eq_true inside, Bool.true_and, Nat.add_sub_cancel_left]
  · have high := Nat.pow_le_pow_right (by decide : 0 < 2) (Nat.not_lt.mp inside)
    rw [decide_eq_false inside, Bool.false_and,
      Nat.testBit_lt_two_pow (Nat.lt_of_lt_of_le below high)]

theorem write_read (range : QubitRange) (index : BasisIndex) :
    range.write index (range.read index) = index := by
  apply Nat.eq_of_testBit_eq
  intro q
  rw [testBit_write (range.read_lt index)]
  split
  · next inside =>
      obtain ⟨lower, upper⟩ := contains_iff.mp inside
      rw [stop] at upper
      rw [testBit_read, decide_eq_true (by omega), Bool.true_and, Nat.add_sub_cancel' lower]
  · rfl

theorem eq_of_read {other : BasisIndex} (same : range.read index = range.read other)
    (others : ∀ q, range.contains q = false → Nat.testBit index q = other.testBit q) :
    index = other := by
  rw [← range.write_read index, ← range.write_read other, same]
  refine Nat.eq_of_testBit_eq fun q => ?_
  rw [testBit_write (range.read_lt other), testBit_write (range.read_lt other)]
  split
  · rfl
  · next outside => exact others q (Bool.eq_false_iff.mpr outside)

theorem write_write {value' : ℕ} (below : value < range.span) (below' : value' < range.span) :
    range.write (range.write index value) value' = range.write index value' := by
  apply Nat.eq_of_testBit_eq
  intro q
  rw [testBit_write below', testBit_write below', testBit_write below]
  split <;> rfl

theorem read_single (qubit : ℕ) (index : BasisIndex) :
    (single qubit).read index = (index.bit qubit).toNat := by
  rw [read_eq_mod, BasisIndex.bit, Nat.toNat_testBit, Nat.shiftRight_eq_div_pow]
  rfl

theorem and_mask_eq_zero_iff : index &&& range.mask = 0 ↔ range.read index = 0 := by
  constructor
  · intro none
    apply Nat.eq_of_testBit_eq
    intro q
    have both := congrArg (Nat.testBit · (range.start + q)) none
    rw [testBit_read, Nat.zero_testBit]
    by_cases inside : q < range.length
    · have within : range.contains (range.start + q) = true :=
        contains_iff.mpr ⟨Nat.le_add_right _ _, Nat.add_lt_add_left inside _⟩
      rw [decide_eq_true inside, Bool.true_and]
      simpa [Nat.testBit_and, testBit_mask, within] using both
    · rw [decide_eq_false inside, Bool.false_and]
  · intro none
    apply Nat.eq_of_testBit_eq
    intro q
    rw [Nat.testBit_and, testBit_mask, Nat.zero_testBit]
    cases inside : range.contains q with
    | false => rw [Bool.and_false]
    | true =>
        obtain ⟨lower, upper⟩ := contains_iff.mp inside
        rw [stop] at upper
        have bit := congrArg (Nat.testBit · (q - range.start)) none
        simpa [testBit_read, Nat.add_sub_cancel' lower, show q - range.start < range.length by omega]
          using bit

def Disjoint (range other : QubitRange) : Prop :=
  ∀ q, range.contains q = true → other.contains q = false

theorem Disjoint.symm (disjoint : range.Disjoint other) : other.Disjoint range := by
  intro q inside
  by_contra both
  rw [disjoint q (Bool.not_eq_false _ ▸ both)] at inside
  cases inside

theorem disjoint_iff : range.Disjoint other ↔ range.mask &&& other.mask = 0 := by
  constructor
  · intro disjoint
    apply Nat.eq_of_testBit_eq
    intro q
    rw [Nat.testBit_and, testBit_mask, testBit_mask, Nat.zero_testBit]
    cases inside : range.contains q with
    | true => rw [disjoint q inside, Bool.and_false]
    | false => rw [Bool.false_and]
  · intro none q inside
    have both := congrArg (Nat.testBit · q) none
    simpa [Nat.testBit_and, testBit_mask, inside] using both

theorem disjoint_single {qubit : ℕ} :
    range.Disjoint (single qubit) ↔ range.contains qubit = false := by
  constructor
  · intro disjoint
    exact disjoint.symm qubit (contains_single.mpr rfl)
  · intro outside q inside
    by_contra both
    rw [Bool.not_eq_false, contains_single] at both
    subst both
    rw [outside] at inside
    cases inside

theorem disjoint_iff_not_lt :
    range.Disjoint other ↔ ¬ max range.start other.start < min range.stop other.stop := by
  constructor
  · intro disjoint shared
    have second := disjoint (max range.start other.start) (contains_iff.mpr (by omega))
    rw [contains_iff.mpr (by omega)] at second
    cases second
  · intro apart q inside
    by_contra both
    have within := contains_iff.mp inside
    have within' := contains_iff.mp (Bool.not_eq_false _ ▸ both)
    omega

theorem Disjoint.read_write (disjoint : range.Disjoint other) (below : value < range.span) :
    other.read (range.write index value) = other.read index :=
  read_congr fun q inside => testBit_write_of_not_mem below (disjoint.symm q inside)

theorem Disjoint.write_comm (disjoint : range.Disjoint other) {value' : ℕ}
    (below : value < range.span) (below' : value' < other.span) :
    other.write (range.write index value) value' = range.write (other.write index value') value := by
  apply Nat.eq_of_testBit_eq
  intro q
  rw [testBit_write below', testBit_write below, testBit_write below, testBit_write below']
  cases inside : range.contains q with
  | true => rw [disjoint q inside, if_neg Bool.false_ne_true, if_pos rfl, if_pos rfl]
  | false => rw [if_neg Bool.false_ne_true, if_neg Bool.false_ne_true]

theorem write_lt (bound : index < 2 ^ width) (inside : range.stop ≤ width)
    (below : value < range.span) : range.write index value < 2 ^ width :=
  Nat.or_lt_two_pow (BasisIndex.clear_lt bound _) (shiftLeft_lt below inside)

end QubitRange

end AmplitudeTree
