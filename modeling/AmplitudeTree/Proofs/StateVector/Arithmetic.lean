import AmplitudeTree.Proofs.StateVector.Operand
import AmplitudeTree.Proofs.StateVector.Scatter

/-!
# Arithmetic operators on state vectors

The conditions on ranges that a carry qubit extends, and the maps of indices of addition to them and
of table look-up, which are bijections.
-/

namespace AmplitudeTree.StateVector

variable {v : StateVector ℝ} {range argument value : QubitRange} {carry width : ℕ}
  {overflow : Option ℕ} {table : Array UInt8}

/-! ## Conditions -/

theorem checkRange_single {qubit : ℕ} :
    v.checkRange (.single qubit) = .ok () ↔ qubit < v.width := by
  rw [checkRange_eq_ok]
  exact and_iff_right Nat.one_ne_zero

/-- A range that a carry qubit may extend. -/
structure Carried (range : QubitRange) (carry width : ℕ) : Prop where
  nonempty : range.length ≠ 0
  inside : range.stop ≤ width
  below : carry < width
  outside : range.contains carry = false

theorem checkDisjoint_pair : v.checkDisjoint [argument, value] = .ok () ↔
    (v.checkRange argument = .ok () ∧ v.checkRange value = .ok ()) ∧ argument.Disjoint value := by
  rw [checkDisjoint_eq_ok, List.pairwise_pair, List.forall_mem_cons, List.forall_mem_singleton]

theorem checkDisjoint_carry :
    v.checkDisjoint [range, .single carry] = .ok () ↔ Carried range carry v.width := by
  rw [checkDisjoint_pair, checkRange_eq_ok, checkRange_single, QubitRange.disjoint_single]
  constructor
  · rintro ⟨⟨⟨nonempty, inside⟩, below⟩, outside⟩
    exact ⟨nonempty, inside, below, outside⟩
  · rintro ⟨nonempty, inside, below, outside⟩
    exact ⟨⟨⟨nonempty, inside⟩, below⟩, outside⟩

theorem checkDisjoint_overflow (carried : Carried range carry v.width)
    (below : ∀ qubit ∈ overflow, qubit < v.width) :
    v.checkDisjoint ([range, .single carry] ++ overflow.toList.map .single) = .ok () ↔
      ∀ qubit ∈ overflow, range.contains qubit = false ∧ qubit ≠ carry := by
  cases overflow with
  | none => exact iff_of_true (checkDisjoint_carry.mpr carried) nofun
  | some qubit =>
      obtain ⟨accepted, apart⟩ := checkDisjoint_eq_ok.mp (checkDisjoint_carry.mpr carried)
      have alone : v.checkRange (.single qubit) = .ok () :=
        checkRange_single.mpr (below qubit rfl)
      have other : (QubitRange.single carry).contains qubit = false ↔ qubit ≠ carry := by
        rw [← Bool.not_eq_true, QubitRange.contains_single]
      have every : (∀ r ∈ [range, .single carry] ++ [.single qubit], v.checkRange r = .ok ()) :=
        List.forall_mem_append.mpr ⟨accepted, List.forall_mem_singleton.mpr alone⟩
      rw [Option.toList_some, List.map_singleton, checkDisjoint_eq_ok, and_iff_right every,
        List.pairwise_append, and_iff_right apart, and_iff_right (List.pairwise_singleton _ _),
        List.forall_mem_cons, List.forall_mem_singleton, List.forall_mem_singleton,
        List.forall_mem_singleton, QubitRange.disjoint_single, QubitRange.disjoint_single, other]
      simp

/-! ## Table look-up -/

theorem tableEntry_lt (table : Array UInt8) (value : QubitRange) (argument : ℕ) :
    tableEntry table value.length argument % value.span < value.span :=
  Nat.mod_lt _ value.span_pos

/-- A second look-up takes the first one back. -/
theorem loadIndex_loadIndex (disjoint : argument.Disjoint value) (index : BasisIndex) :
    loadIndex table argument value (loadIndex table argument value index) = index := by
  have same : argument.read (loadIndex table argument value index) = argument.read index := by
    refine QubitRange.read_congr fun q inside => ?_
    rw [loadIndex, Nat.testBit_xor,
      QubitRange.testBit_shiftLeft_of_not_mem (tableEntry_lt table value _) (disjoint q inside),
      Bool.xor_false]
  conv_lhs => rw [loadIndex, same, loadIndex]
  rw [Nat.xor_assoc, Nat.xor_self, Nat.xor_zero]

theorem bijOn_loadIndex (disjoint : argument.Disjoint value) (inside : value.stop ≤ width) :
    Set.BijOn (loadIndex table argument value) (Set.Iio (2 ^ width)) (Set.Iio (2 ^ width)) := by
  have maps : Set.MapsTo (loadIndex table argument value) (Set.Iio (2 ^ width))
      (Set.Iio (2 ^ width)) := fun index bound =>
    Nat.xor_lt_two_pow bound (QubitRange.shiftLeft_lt (tableEntry_lt table value _) inside)
  exact Set.InvOn.bijOn ⟨fun index _ => loadIndex_loadIndex disjoint index,
    fun index _ => loadIndex_loadIndex disjoint index⟩ maps maps

/-! ## Sums -/

/-- What a range holds after an addition, in the basis states with all controls set. -/
theorem read_addIndex {mask index : BasisIndex} (selected : index.hasAll mask = true) (addend : ℕ) :
    range.read (addIndex addend range mask index) = (range.read index + addend) % range.span := by
  rw [addIndex, selected, if_pos rfl]
  exact QubitRange.read_write (Nat.mod_lt _ range.span_pos)

theorem testBit_addIndex {q : ℕ} (outside : range.contains q = false) (addend : ℕ)
    (mask index : BasisIndex) : (addIndex addend range mask index).testBit q = index.testBit q := by
  have lawful := Code.lawful_binary range.length
  rw [Code.addIndex_eq]
  exact (lawful.narrow_writesOnly _).testBit_add lawful.span_pos _ _ (Bool.eq_false_iff.mp outside)

theorem addIndex_congr {addend addend' : ℕ} (same : addend ≡ addend' [MOD range.span])
    (mask : BasisIndex) : addIndex addend range mask = addIndex addend' range mask := by
  rw [Code.addIndex_eq, Code.addIndex_eq, ← Operand.add_mod, ← Operand.add_mod _ addend']
  exact congrArg _ same

/-- Two additions to one range under the same controls are one. -/
theorem addIndex_addIndex (inside : range.stop ≤ width) {mask : BasisIndex}
    (apart : mask &&& range.mask = 0) (addend addend' : ℕ) (index : BasisIndex) :
    addIndex addend' range mask (addIndex addend range mask index) =
      addIndex (addend + addend') range mask index := by
  rw [Code.addIndex_eq, Code.addIndex_eq, Code.addIndex_eq]
  exact ((Code.lawful_binary range.length).narrow inside apart).add_add addend addend' index

theorem addIndex_zero (range : QubitRange) (mask index : BasisIndex) :
    addIndex 0 range mask index = index := by
  rw [addIndex, Nat.add_zero, Nat.mod_eq_of_lt (range.read_lt index), range.write_read, ite_id]

/-- What a range and a carry qubit at its top hold after an addition. -/
theorem readWide_addCarryIndex (carried : Carried range carry width) (addend : ℕ)
    (index : BasisIndex) : readWide range carry (addCarryIndex addend range carry index) =
      (readWide range carry index + addend) % (2 * range.span) := by
  have lawful := (Code.lawful_binary range.length).wide carried.outside carried.inside carried.below
  have sum := lawful.read_add (show ((Code.binary range.length).wide range carry).read index =
    some (readWide range carry index) from rfl) addend
  rw [Code.addCarryIndex_eq]
  exact Option.some.inj sum

theorem readWide_mod (range : QubitRange) (carry : ℕ) (index : BasisIndex) :
    readWide range carry index % range.span = range.read index := by
  have low := Nat.mod_eq_of_lt (range.read_lt index)
  unfold readWide
  split
  · rw [Nat.add_mod_right, low]
  · rw [Nat.add_zero, low]

theorem read_addCarryIndex (carried : Carried range carry width) (addend : ℕ) (index : BasisIndex) :
    range.read (addCarryIndex addend range carry index) =
      (range.read index + addend % range.span) % range.span := by
  rw [← readWide_mod range carry, readWide_addCarryIndex carried, Nat.mod_mul_left_mod, Nat.add_mod,
    readWide_mod, Nat.add_mod_mod]

/-! ## Operators -/

theorem Carried.bijOn_addCarryIndex (carried : Carried range carry width) (addend : ℕ) :
    Set.BijOn (addCarryIndex addend range carry) (Set.Iio (2 ^ width)) (Set.Iio (2 ^ width)) := by
  rw [Code.addCarryIndex_eq]
  exact ((Code.lawful_binary range.length).wide carried.outside carried.inside
    carried.below).bijOn_add addend

theorem Carried.bijOn_addDecimalCarryIndex (carried : Carried range carry width)
    (digits : range.length % 4 = 0) (addend : ℕ) :
    Set.BijOn (addDecimalCarryIndex addend (range.length / 4) range carry) (Set.Iio (2 ^ width))
      (Set.Iio (2 ^ width)) := by
  rw [Code.addDecimalCarryIndex_eq]
  exact ((Code.lawful_decimal (Nat.mul_div_cancel' (Nat.dvd_of_mod_eq_zero digits))).wide
    carried.outside carried.inside carried.below).bijOn_add addend

end AmplitudeTree.StateVector
