import AmplitudeTree.Proofs.Register.Outcome
import AmplitudeTree.Proofs.StateVector.Move
import AmplitudeTree.Proofs.StateVector.Parity
import AmplitudeTree.Proofs.StateVector.Reversible
import Mathlib.Data.Int.ModEq

/-!
# Addition of table entries

An addition of table entries measures the carry qubit and clears it.  What is left then goes from every
index to the one that holds the sum of the number in the value range, the entry for the number in the
argument range and the measured carry.  As the argument stays, no two indices go to one place, although
the carry that was measured is written over.
-/

namespace AmplitudeTree.StateVector

variable {v v' : StateVector ℝ} {table : Array UInt8} {sign : Sign} {argument value : QubitRange}
  {carry span number number' entry result width : ℕ} {set out : Bool} {index other : BasisIndex}

/-! ## Entries -/

def storedEntry (table : Array UInt8) (length argument : ℕ) : ℕ :=
  (∑ place ∈ Finset.range (entryBytes length),
    256 ^ place * (table[argument * entryBytes length + place]?.getD 0).toNat) % 2 ^ length

theorem littleEndian_eq_sum (table : Array UInt8) (bytes position : ℕ) :
    littleEndian table bytes position =
      ∑ place ∈ Finset.range bytes, 256 ^ place * (table[position + place]?.getD 0).toNat := by
  induction bytes generalizing position with
  | zero => rfl
  | succ bytes ih =>
      rw [littleEndian, ih, Finset.sum_range_succ', Finset.mul_sum, Nat.add_comm]
      refine congrArg₂ _ (Finset.sum_congr rfl fun place _ => ?_) (by simp)
      rw [pow_succ', Nat.mul_assoc, Nat.add_right_comm, Nat.add_assoc]

theorem tableEntry_mod (table : Array UInt8) (value : QubitRange) (number : ℕ) :
    tableEntry table value.length number % value.span = storedEntry table value.length number := by
  rw [tableEntry, littleEndian_eq_sum]
  rfl

/-! ## Sums with carry -/

/-- The number and the carry of a sum with carry or a difference with borrow; a set
carry means no borrow. -/
def Sign.Yields (sign : Sign) (span number entry : ℕ) (set : Bool) (result : ℕ) (out : Bool) : Prop :=
  match sign with
  | .plus => result = (number + entry + set.toNat) % span ∧
      (out = true ↔ span ≤ number + entry + set.toNat)
  | .minus => (result : ℤ) = ((number : ℤ) - entry - (1 - set.toNat)) % span ∧
      (out = true ↔ (0 : ℤ) ≤ (number : ℤ) - entry - (1 - set.toNat))

theorem Sign.combine_lt (below : number < span) (sign : Sign) (entry : ℕ) (set : Bool) :
    (sign.combine span number entry set).1 < span := by
  cases sign with
  | plus => exact Nat.mod_lt _ (Nat.zero_lt_of_lt below)
  | minus =>
      simp only [combine]
      split <;> dsimp only <;> omega

theorem Sign.yields_combine (below : number < span) (below' : entry < span) (sign : Sign)
    (set : Bool) : sign.Yields span number entry set (sign.combine span number entry set).1
      (sign.combine span number entry set).2 := by
  cases sign with
  | plus => exact ⟨rfl, decide_eq_true_iff⟩
  | minus =>
      have borrow : ((!set).toNat : ℤ) = 1 - set.toNat := by cases set <;> rfl
      have bit := Bool.toNat_le (!set)
      simp only [Yields, combine, ← borrow]
      split
      · next enough =>
          refine ⟨?_, by simp; omega⟩
          rw [Int.emod_eq_of_lt] <;> omega
      · next short =>
          refine ⟨?_, by simp; omega⟩
          rw [← Int.add_emod_right, Int.emod_eq_of_lt] <;> omega

/-- The entry and the measured carry being the same, different numbers have different results. -/
theorem Sign.Yields.number_unique (below : number < span) (below' : number' < span)
    (yields : sign.Yields span number entry set result out)
    (yields' : sign.Yields span number' entry set result out) : number = number' := by
  refine Nat.ModEq.eq_of_lt_of_lt ?_ below below'
  cases sign with
  | plus =>
      have same : number + entry + set.toNat ≡ number' + entry + set.toNat [MOD span] :=
        yields.1.symm.trans yields'.1
      exact (same.add_right_cancel' _).add_right_cancel' _
  | minus =>
      have same : (number : ℤ) - entry - (1 - set.toNat) ≡ number' - entry - (1 - set.toNat)
          [ZMOD span] := yields.1.symm.trans yields'.1
      rw [sub_sub, sub_sub] at same
      exact Int.natCast_modEq_iff.mp (by simpa using same.add_right (entry + (1 - set.toNat) : ℤ))

/-! ## Places -/

/-- An index that holds the sum or difference of another one, whose measured carry was `set`. -/
structure Combines (table : Array UInt8) (sign : Sign) (argument value : QubitRange) (carry : ℕ)
    (set : Bool) (index image : BasisIndex) : Prop where
  yields : sign.Yields value.span (value.read index)
    (storedEntry table value.length (argument.read index)) set (value.read image)
    (image.testBit carry)
  argument : argument.read image = argument.read index
  others : ∀ q, value.contains q = false → q ≠ carry → image.testBit q = index.testBit q

structure Indexed (table : Array UInt8) (argument value : QubitRange) (carry width : ℕ) : Prop where
  carried : Carried value carry width
  nonempty : argument.length ≠ 0
  inside : argument.stop ≤ width
  outside : argument.contains carry = false
  disjoint : argument.Disjoint value
  enough : argument.span * entryBytes value.length ≤ table.size

theorem indexed_iff : v.checkDisjoint [argument, value, .single carry] = .ok () ∧
    checkTable table argument.span value.length = .ok () ↔
      Indexed table argument value carry v.width := by
  rw [checkDisjoint_eq_ok, ReversibleCall.checkTable_eq_ok]
  rw [List.forall_mem_cons, List.forall_mem_cons, List.forall_mem_singleton, checkRange_single,
    checkRange_eq_ok, checkRange_eq_ok]
  simp only [List.forall_mem_cons, List.pairwise_cons, QubitRange.disjoint_single]
  constructor
  · rintro ⟨⟨⟨⟨nonempty, inside⟩, ⟨nonempty', inside'⟩, below⟩, ⟨disjoint, outside, -⟩,
      ⟨outside', -⟩, -⟩, enough⟩
    exact ⟨⟨nonempty', inside', below, outside'⟩, nonempty, inside, outside, disjoint, enough⟩
  · rintro ⟨⟨nonempty', inside', below, outside'⟩, nonempty, inside, outside, disjoint, enough⟩
    exact ⟨⟨⟨⟨nonempty, inside⟩, ⟨nonempty', inside'⟩, below⟩, ⟨disjoint, outside, nofun⟩,
      ⟨outside', nofun⟩, nofun, .nil⟩, enough⟩

def outcome (table : Array UInt8) (sign : Sign) (argument value : QubitRange) (set : Bool)
    (index : BasisIndex) : ℕ × Bool :=
  sign.combine value.span (value.read index) (storedEntry table value.length (argument.read index)) set

def combinePlace (table : Array UInt8) (sign : Sign) (argument value : QubitRange) (carry : ℕ)
    (set : Bool) (index : BasisIndex) : BasisIndex :=
  (QubitRange.single carry).write (value.write index (outcome table sign argument value set index).1)
    (outcome table sign argument value set index).2.toNat

theorem outcome_lt (table : Array UInt8) (sign : Sign) (argument value : QubitRange) (set : Bool)
    (index : BasisIndex) : (outcome table sign argument value set index).1 < value.span :=
  sign.combine_lt (value.read_lt index) _ set

theorem testBit_combinePlace (table : Array UInt8) (sign : Sign) (argument value : QubitRange)
    (carry : ℕ) (set : Bool) (index : BasisIndex) (q : ℕ) :
    (combinePlace table sign argument value carry set index).testBit q =
      if q = carry then (outcome table sign argument value set index).2
      else (value.write index (outcome table sign argument value set index).1).testBit q := by
  rw [combinePlace, QubitRange.testBit_write (Bool.toNat_lt _)]
  simp only [QubitRange.contains_single]
  split
  · next same =>
      subst same
      cases (outcome table sign argument value set index).2 <;> simp [QubitRange.single]
  · rfl

namespace Indexed

variable (indexed : Indexed table argument value carry width)
include indexed

theorem combines_combinePlace (sign : Sign) (set : Bool) (index : BasisIndex) :
    Combines table sign argument value carry set index
      (combinePlace table sign argument value carry set index) := by
  have below := outcome_lt table sign argument value set index
  have bits := testBit_combinePlace table sign argument value carry set index
  have others (q : ℕ) (outside : value.contains q = false) (different : q ≠ carry) :
      (combinePlace table sign argument value carry set index).testBit q = index.testBit q := by
    rw [bits, if_neg different, QubitRange.testBit_write_of_not_mem below outside]
  refine ⟨?_, QubitRange.read_congr fun q inside => others q (indexed.disjoint q inside) ?_, others⟩
  · have apart : value.Disjoint (.single carry) :=
      QubitRange.disjoint_single.mpr indexed.carried.outside
    have number : value.read (combinePlace table sign argument value carry set index) =
        (outcome table sign argument value set index).1 :=
      (apart.symm.read_write (Bool.toNat_lt _)).trans (value.read_write below)
    rw [number, bits, if_pos rfl]
    exact Sign.yields_combine (value.read_lt index) (Nat.mod_lt _ value.span_pos) sign set
  · rintro rfl
    exact Bool.eq_false_iff.mp indexed.outside inside

theorem combinePlace_lt (sign : Sign) (set : Bool) (bound : index < 2 ^ width) :
    combinePlace table sign argument value carry set index < 2 ^ width :=
  QubitRange.write_lt
    (QubitRange.write_lt bound indexed.carried.inside
      (outcome_lt table sign argument value set index))
    indexed.carried.below (Bool.toNat_lt _)

theorem combineIndex_clear (sign : Sign) (set : Bool) (index : BasisIndex) :
    combineIndex table sign argument value carry set (index.clear (.power carry)) =
      some (combinePlace table sign argument value carry set index) := by
  have clear : (index.clear (.power carry)).bit carry = false := by
    rw [BasisIndex.bit, BasisIndex.testBit_clear_power, Function.update_self]
  have below := outcome_lt table sign argument value set index
  rw [combineIndex, clear, if_neg Bool.false_ne_true, tableEntry_mod,
    QubitRange.read_clear_power indexed.outside, QubitRange.read_clear_power indexed.carried.outside]
  refine congrArg some (Nat.eq_of_testBit_eq fun q => ?_)
  change Nat.testBit (value.write (index.clear (.power carry))
    (outcome table sign argument value set index).1 |||
      if (outcome table sign argument value set index).2 then BasisIndex.power carry else 0) q = _
  rw [Nat.testBit_or, testBit_combinePlace, QubitRange.testBit_write below,
    QubitRange.testBit_write below, BasisIndex.testBit_clear_power]
  by_cases same : q = carry
  · subst same
    rw [if_pos rfl, indexed.carried.outside, if_neg Bool.false_ne_true, Function.update_self]
    cases (outcome table sign argument value set index).2 <;> simp [BasisIndex.power]
  · rw [if_neg same, Function.update_of_ne same]
    cases (outcome table sign argument value set index).2 <;>
      simp [BasisIndex.power, Ne.symm same]

/-- Two indices with the measured carry do not go to one place. -/
theorem injOn_combinePlace (sign : Sign) (set : Bool) :
    Set.InjOn (combinePlace table sign argument value carry set)
      {index | index.testBit carry = set} := by
  intro index measured other measured' same
  have combines := indexed.combines_combinePlace sign set index
  have combines' := indexed.combines_combinePlace sign set other
  rw [← same] at combines'
  have others (q : ℕ) (outside : value.contains q = false) : index.testBit q = other.testBit q := by
    by_cases here : q = carry
    · rw [here]
      exact measured.trans measured'.symm
    · rw [← combines.others q outside here, combines'.others q outside here]
  -- the argument lies outside the value range, so that both find the same entry
  have arguments : argument.read index = argument.read other :=
    QubitRange.read_congr fun q inside => others q (indexed.disjoint q inside)
  refine QubitRange.eq_of_read ?_ others
  have yields := combines'.yields
  rw [← arguments] at yields
  exact combines.yields.number_unique (value.read_lt index) (value.read_lt other) yields

end Indexed

/-! ## Amplitudes -/

/-- A state vector holds the amplitudes of another one at the chosen indices in places of their own,
and no others. -/
structure Embeds (v v' : StateVector ℝ) (chosen : BasisIndex → Prop)
    (place : BasisIndex → BasisIndex) : Prop where
  size : v'.amplitudes.size = v.amplitudes.size
  injective : Set.InjOn place {index | index < v.amplitudes.size ∧ chosen index}
  below : ∀ index < v.amplitudes.size, chosen index → place index < v.amplitudes.size
  amplitude : ∀ index < v.amplitudes.size, chosen index →
    v'.amplitudeD (place index) = v.amplitudeD index
  others : ∀ image < v.amplitudes.size,
    (∀ index < v.amplitudes.size, chosen index → place index ≠ image) → v'.amplitudeD image = 0

theorem Embeds.normSq_eq {chosen : BasisIndex → Prop} {place : BasisIndex → BasisIndex}
    (embeds : v.Embeds v' chosen place)
    (empty : ∀ index < v.amplitudes.size, ¬ chosen index → v.amplitudeD index = 0) :
    v'.normSq = v.normSq := by
  classical
  have weightless {w : StateVector ℝ} {index : ℕ} (none : w.amplitudeD index = 0) :
      w.weightAt index = 0 := by
    simp [weightAt, none]
  rw [normSq_eq_sum, normSq_eq_sum, embeds.size]
  have counted : ∀ index ∈ Finset.range v.amplitudes.size, v.weightAt index ≠ 0 → chosen index := by
    intro index listed some
    by_contra other
    exact some (weightless (empty index (Finset.mem_range.mp listed) other))
  rw [← Finset.sum_filter_of_ne counted]
  symm
  refine Finset.sum_of_injOn place ?_ ?_ ?_ ?_
  · intro index listed index' listed' same
    simp only [Finset.coe_filter, Finset.mem_range, Set.mem_ofPred_eq] at listed listed'
    exact embeds.injective listed listed' same
  · intro index listed
    simp only [Finset.coe_filter, Finset.mem_range, Set.mem_ofPred_eq] at listed
    exact Finset.mem_coe.mpr (Finset.mem_range.mpr (embeds.below index listed.1 listed.2))
  · intro image listed outside
    have bound' := Finset.mem_range.mp listed
    refine weightless (embeds.others image bound' fun index bound chosen found => ?_)
    exact outside ⟨index, by simpa using ⟨bound, chosen⟩, found⟩
  · intro index listed
    obtain ⟨bound, chosen⟩ := Finset.mem_filter.mp listed
    rw [weightAt, weightAt, embeds.amplitude index (Finset.mem_range.mp bound) chosen]

noncomputable def carryCleared (v : StateVector ℝ) (carry : ℕ) (set : Bool) : StateVector ℝ :=
  if set then v.scatter fun index => some (index ^^^ .power carry) else v

theorem size_carryCleared (v : StateVector ℝ) (carry : ℕ) (set : Bool) :
    (v.carryCleared carry set).amplitudes.size = v.amplitudes.size := by
  cases set <;> simp [carryCleared]

theorem amplitudeD_carryCleared (size : v.amplitudes.size = 2 ^ width) (below : carry < width)
    (bound : index < 2 ^ width) (measured : index.testBit carry = set) :
    (v.carryCleared carry set).amplitudeD (index.clear (.power carry)) = v.amplitudeD index := by
  cases set with
  | false =>
      rw [BasisIndex.clear_power_of_testBit_eq_false measured, carryCleared,
        if_neg Bool.false_ne_true]
  | true =>
      have maps : Set.MapsTo (· ^^^ BasisIndex.power carry) (Set.Iio (2 ^ width))
          (Set.Iio (2 ^ width)) := fun index inside =>
        Nat.xor_lt_two_pow inside (BasisIndex.power_lt below)
      have twice (index : BasisIndex) : index ^^^ BasisIndex.power carry ^^^ .power carry = index := by
        rw [Nat.xor_assoc, Nat.xor_self, Nat.xor_zero]
      have bijective : Set.BijOn (· ^^^ BasisIndex.power carry) (Set.Iio v.amplitudes.size)
          (Set.Iio v.amplitudes.size) :=
        size ▸ Set.InvOn.bijOn ⟨fun index _ => twice index, fun index _ => twice index⟩ maps maps
      have bit : index.clear (.power carry) = index ^^^ .power carry := by
        rw [BasisIndex.clear, BasisIndex.power, Nat.and_two_pow, measured, Bool.toNat_true, one_mul]
      rw [bit]
      exact (rearranges_scatter bijective).2.2 index (bound.trans_eq size.symm)

noncomputable def combined (v : StateVector ℝ) (sign : Sign) (argument value : QubitRange) (carry : ℕ)
    (table : Array UInt8) (set : Bool) : StateVector ℝ :=
  (v.carryCleared carry set).scatter (combineIndex table sign argument value carry set)

theorem Indexed.embeds_combined (indexed : Indexed table argument value carry width)
    (size : v.amplitudes.size = 2 ^ width) (sign : Sign) (set : Bool) :
    v.Embeds (v.combined sign argument value carry table set) (fun index => index.testBit carry = set)
      (combinePlace table sign argument value carry set) := by
  have cleared := v.size_carryCleared carry set
  -- what goes anywhere has the carry clear, and so comes from an index with the measured carry
  have source {other image : BasisIndex} (bound : other < 2 ^ width)
      (found : combineIndex table sign argument value carry set other = some image) :
      ∃ index < 2 ^ width, index.testBit carry = set ∧ index.clear (.power carry) = other ∧
        combinePlace table sign argument value carry set index = image := by
    have clear : other.testBit carry = false := by
      by_contra still
      rw [combineIndex, if_pos (Bool.not_eq_false _ ▸ still)] at found
      cases found
    obtain ⟨index, inside, measured, rfl⟩ :=
      BasisIndex.exists_clear_power bound indexed.carried.below clear set
    rw [indexed.combineIndex_clear] at found
    exact ⟨index, inside, measured, rfl, Option.some.inj found⟩
  refine ⟨?_, ?_, ?_, ?_, ?_⟩
  · exact (size_scatter ..).trans cleared
  · exact (indexed.injOn_combinePlace sign set).mono fun index chosen => chosen.2
  · intro index bound _
    exact (indexed.combinePlace_lt sign set (bound.trans_eq size)).trans_eq size.symm
  · intro index bound measured
    rw [size] at bound
    rw [← amplitudeD_carryCleared size indexed.carried.below bound measured]
    refine amplitudeD_forward_of_alone ?_ ?_ (indexed.combineIndex_clear sign set index) ?_
    · exact (BasisIndex.clear_lt bound _).trans_eq (cleared.trans size).symm
    · exact (indexed.combinePlace_lt sign set bound).trans_eq (cleared.trans size).symm
    · intro other stored found
      obtain ⟨index', -, measured', rfl, same⟩ := source (stored.trans_eq (cleared.trans size)) found
      rw [indexed.injOn_combinePlace sign set measured' measured same]
  · intro image bound nowhere
    refine amplitudeD_forward_of_none (bound.trans_eq cleared.symm) fun other stored found => ?_
    obtain ⟨index, inside, measured, -, same⟩ := source (stored.trans_eq (cleared.trans size)) found
    exact nowhere index (inside.trans_eq size.symm) measured same

/-! ## Calls -/

/-- What a measurement of one qubit leaves: the amplitudes with the outcome, brought to norm one. -/
structure Collapses (v : StateVector ℝ) (qubit : ℕ) (set : Bool) (collapsed : StateVector ℝ) :
    Prop where
  width : collapsed.width = v.width
  size : collapsed.amplitudes.size = v.amplitudes.size
  unit : collapsed.normSq = 1
  kept : ∃ factor > 0, ∀ index, collapsed.amplitudeD index =
    if index.testBit qubit = set then (v.amplitudeD index).scaledBy factor else 0

noncomputable def massOf (v : StateVector ℝ) (qubit : ℕ) (set : Bool) : ℝ :=
  v.massWhere fun index => index.testBit qubit == set

/-- In a state of norm one the drawn outcome is returned if it has more than
rounding probability. -/
theorem measureParity_power (unit : v.normSq = 1) (qubit : ℕ) :
    let set := v.chosenParity (.power qubit) none
    (Scalar.machineEpsilon < v.massOf qubit set → ∃ collapsed,
      v.measureParity (.power qubit) none = (.ok set, collapsed) ∧ v.Collapses qubit set collapsed) ∧
    (¬ Scalar.machineEpsilon < v.massOf qubit set → ∃ e collapsed,
      v.measureParity (.power qubit) none = (.error e, collapsed)) := by
  intro set
  have mass : v.assumedProbability (.power qubit) set = v.massOf qubit set := by
    rw [assumedProbability_eq unit, massOf]
    simp only [isOdd_power]
  obtain ⟨generator, measured⟩ := v.measureParity_eq (BasisIndex.power_ne_zero qubit) none
  rw [mass] at measured
  constructor
  · intro likely
    rw [if_neg (mt (Scalar.le_iff _ _).mp (not_le.mpr likely))] at measured
    have positive := Scalar.machineEpsilon_pos.trans likely
    refine ⟨_, measured, rfl, size_projectParity .., ?_, _, Scalar.one_div_sqrt_pos positive, ?_⟩
    · rw [normSq_projectParity]
      simp only [isOdd_power]
      exact Scalar.one_div_sqrt_mul_self positive
    · intro index
      rw [amplitudeD_projectParity, isOdd_power]
      rfl
  · intro unlikely
    rw [if_pos ((Scalar.le_iff _ _).mpr (not_lt.mp unlikely))] at measured
    exact ⟨_, _, measured⟩

/-- A call returns if its operands are accepted and the carry qubit can be measured. -/
theorem combine_eq_ok {mean : ℝ} : v.combine sign argument value carry table = (.ok mean, v') ↔
    Indexed table argument value carry v.width ∧ ∃ set collapsed,
      v.measureParity (.power carry) none = (.ok set, collapsed) ∧
      collapsed.combined sign argument value carry table set = v' ∧ v'.expectation value = mean := by
  rw [← indexed_iff, combine]
  cases v.checkDisjoint [argument, value, .single carry] with
  | error e => simp [bind, Except.bind]
  | ok _ =>
      cases checkTable table argument.span value.length with
      | error e => simp [bind, Except.bind]
      | ok _ =>
          rcases v.measureParity (.power carry) none with ⟨outcome, collapsed⟩
          cases outcome with
          | error e => simp [bind, Except.bind]
          | ok set =>
              simp only [bind, Except.bind, Prod.mk.injEq, Except.ok.injEq]
              constructor
              · rintro ⟨rfl, rfl⟩
                exact ⟨⟨trivial, trivial⟩, set, collapsed, ⟨rfl, rfl⟩, rfl, rfl⟩
              · rintro ⟨-, _, _, ⟨rfl, rfl⟩, rfl, rfl⟩
                exact ⟨rfl, rfl⟩

/-- In a state of norm one, an addition of table entries returns if its operands are accepted and
the drawn carry has more than rounding probability.  The amplitudes with this carry, brought to norm
one, go to places of their own with the sum or difference, and its mean is returned. -/
theorem table_addition (size : v.amplitudes.size = 2 ^ v.width) (unit : v.normSq = 1) :
    ((∃ mean v', v.combine sign argument value carry table = (.ok mean, v')) ↔
      Indexed table argument value carry v.width ∧
        Scalar.machineEpsilon < v.massOf carry (v.chosenParity (.power carry) none)) ∧
    ∀ mean v', v.combine sign argument value carry table = (.ok mean, v') →
      ∃ set collapsed place, v.measureParity (.power carry) none = (.ok set, collapsed) ∧
        v.Collapses carry set collapsed ∧
        collapsed.Embeds v' (fun index => index.testBit carry = set) place ∧
        (∀ index, Combines table sign argument value carry set index (place index)) ∧
        v'.normSq = 1 ∧
        mean = ∑ index ∈ Finset.range (2 ^ v.width), v'.weightAt index * value.read index := by
  obtain ⟨returns, fails⟩ := measureParity_power unit carry
  constructor
  · constructor
    · rintro ⟨mean, v', ran⟩
      obtain ⟨indexed, set, collapsed, measured, -⟩ := combine_eq_ok.mp ran
      refine ⟨indexed, by_contra fun unlikely => ?_⟩
      obtain ⟨e, _, failed⟩ := fails unlikely
      cases (Prod.mk.inj (measured.symm.trans failed)).1
    · rintro ⟨indexed, likely⟩
      obtain ⟨collapsed, measured, -⟩ := returns likely
      exact ⟨_, _, combine_eq_ok.mpr ⟨indexed, _, _, measured, rfl, rfl⟩⟩
  · intro mean v' ran
    obtain ⟨indexed, set, collapsed, measured, rfl, rfl⟩ := combine_eq_ok.mp ran
    have collapses : v.Collapses carry set collapsed := by
      by_cases likely : Scalar.machineEpsilon < v.massOf carry (v.chosenParity (.power carry) none)
      · obtain ⟨_, measured', collapses⟩ := returns likely
        cases measured.symm.trans measured'
        exact collapses
      · obtain ⟨e, _, failed⟩ := fails likely
        cases (Prod.mk.inj (measured.symm.trans failed)).1
    have sizes := collapses.size.trans size
    have embeds := indexed.embeds_combined sizes sign set
    refine ⟨set, collapsed, _, measured, collapses, embeds, indexed.combines_combinePlace sign set,
      ?_, ?_⟩
    · rw [embeds.normSq_eq, collapses.unit]
      intro index _ other
      obtain ⟨factor, -, kept⟩ := collapses.kept
      rw [kept, if_neg other]
    · rw [expectation_eq, embeds.size, sizes]

/-- Two amplitudes with the carry set; the entries count as zero, so the carry alone is added. -/
theorem table_addition_carry :
    let v : StateVector ℝ := ⟨3, #[0, 0, 0, 0, ⟨3 / 5, 0⟩, ⟨4 / 5, 0⟩, 0, 0], .ofSeed 0, .all⟩
    v.amplitudes.size = 2 ^ v.width ∧ v.normSq = 1 ∧
      ∃ mean v', v.combine .plus ⟨0, 1⟩ ⟨1, 1⟩ 2 #[0, 2] = (.ok mean, v') ∧
        v'.amplitudeD 2 ≠ 0 ∧ v'.amplitudeD 3 ≠ 0 ∧ v'.normSq = 1 := by
  intro v
  have size : v.amplitudes.size = 2 ^ v.width := rfl
  have entries : v.amplitudeD 0 = 0 ∧ v.amplitudeD 1 = 0 ∧ v.amplitudeD 2 = 0 ∧ v.amplitudeD 3 = 0 ∧
      v.amplitudeD 4 = ⟨3 / 5, 0⟩ ∧ v.amplitudeD 5 = ⟨4 / 5, 0⟩ ∧ v.amplitudeD 6 = 0 ∧
      v.amplitudeD 7 = 0 := ⟨rfl, rfl, rfl, rfl, rfl, rfl, rfl, rfl⟩
  have total (keep : BasisIndex → Bool) (kept : keep 4 = true ∧ keep 5 = true) :
      v.massWhere keep = 1 := by
    rw [massWhere_eq]
    change ∑ index ∈ Finset.range 8, _ = _
    simp only [Finset.sum_range_succ, Finset.sum_range_zero, weightAt, entries, kept,
      Amplitude.toComplex_zero, map_zero, ite_self, if_true]
    norm_num [Complex.normSq_apply]
  have unit : v.normSq = 1 := total _ ⟨rfl, rfl⟩
  have drawn : v.chosenParity (.power 2) none = true := by
    refine (Scalar.lt_iff _ _).mpr ?_
    rw [total _ ⟨isOdd_power 2 4, isOdd_power 2 5⟩]
    exact v.generator.unit_lt_one
  have likely : Scalar.machineEpsilon < v.massOf 2 (v.chosenParity (.power 2) none) := by
    rw [drawn, massOf, total _ ⟨rfl, rfl⟩]
    norm_num [Scalar.machineEpsilon, Scalar.ofNat]
  obtain ⟨returns, leaves⟩ := @table_addition v #[0, 2] .plus ⟨0, 1⟩ ⟨1, 1⟩ 2 size unit
  obtain ⟨mean, v', ran⟩ := returns.mpr ⟨⟨⟨by decide, by decide, by decide, rfl⟩, by decide, by decide,
    rfl, QubitRange.disjoint_iff.mpr rfl, by decide⟩, likely⟩
  obtain ⟨set, collapsed, place, measured, collapses, embeds, combines, norm, -⟩ := leaves mean v' ran
  obtain ⟨_, measured', -⟩ := (measureParity_power unit 2).1 likely
  obtain rfl : set = true := by
    rw [← drawn]
    exact Except.ok.inj (Prod.mk.inj (measured.symm.trans measured')).1
  obtain ⟨factor, positive, kept⟩ := collapses.kept
  have moved (index image : BasisIndex) (stored : index < 2 ^ 3) (carried : index.testBit 2 = true)
      (only : ∀ image' < 2 ^ 3, Combines #[0, 2] .plus ⟨0, 1⟩ ⟨1, 1⟩ 2 true index image' →
        image' = image) (some : v.amplitudeD index ≠ 0) : v'.amplitudeD image ≠ 0 := by
    rw [← collapses.size.trans size] at stored
    have below := (embeds.below index stored carried).trans_eq (collapses.size.trans size)
    rw [← only _ below (combines index), embeds.amplitude index stored carried, kept, if_pos carried,
      Ne, ← Amplitude.toComplex_eq_zero_iff, toComplex_scaledBy, mul_eq_zero, Complex.ofReal_eq_zero,
      Amplitude.toComplex_eq_zero_iff]
    exact not_or.mpr ⟨positive.ne', some⟩
  have first : ∀ image < 2 ^ 3, QubitRange.read ⟨1, 1⟩ image = 1 → (image.testBit 2 = true ↔ 2 ≤ 1) →
      QubitRange.read ⟨0, 1⟩ image = 0 → image = 2 := by decide
  have second : ∀ image < 2 ^ 3, QubitRange.read ⟨1, 1⟩ image = 1 → (image.testBit 2 = true ↔ 2 ≤ 1) →
      QubitRange.read ⟨0, 1⟩ image = 1 → image = 3 := by decide
  refine ⟨size, unit, mean, v', ran, moved 4 2 (by decide) rfl ?_ ?_, moved 5 3 (by decide) rfl ?_ ?_,
    norm⟩
  · rintro image below ⟨⟨number, carry⟩, argument, -⟩
    exact first image below number carry argument
  · refine ne_of_apply_ne Amplitude.re ?_
    change (3 / 5 : ℝ) ≠ 0
    norm_num
  · rintro image below ⟨⟨number, carry⟩, argument, -⟩
    exact second image below number carry argument
  · refine ne_of_apply_ne Amplitude.re ?_
    change (4 / 5 : ℝ) ≠ 0
    norm_num

end AmplitudeTree.StateVector
