import AmplitudeTree.Proofs.Register.Action
import AmplitudeTree.Proofs.StateVector
import AmplitudeTree.Proofs.StateVector.Arithmetic
import AmplitudeTree.Proofs.StateVector.Move
import AmplitudeTree.Proofs.StateVector.Update
import Mathlib.Data.Set.Finite.Basic

/-!
# Reversible operators

Addition in all its forms, table look-up, substitution and comparison move every amplitude to a
place of its own and negate some of them.  No other qubits change than those of the range that is
written and of the carry.  Which operands an operator accepts does not depend on the amplitudes.  An
operator that takes every index to where it was takes another one back, if both negate nothing.
-/

namespace AmplitudeTree.StateVector

variable {v : StateVector ℝ} {width : ℕ}

/-! ## Controls -/

theorem maskOf_and_eq_zero_iff {controls : List ℕ} {operands : BasisIndex} :
    maskOf controls &&& operands = 0 ↔ ∀ control ∈ controls, operands.testBit control = false := by
  constructor
  · intro none control listed
    have both := congrArg (Nat.testBit · control) none
    simpa [Nat.testBit_and, testBit_maskOf, listed] using both
  · intro apart
    apply Nat.eq_of_testBit_eq
    intro q
    rw [Nat.testBit_and, testBit_maskOf, Nat.zero_testBit]
    by_cases listed : q ∈ controls
    · rw [apart q listed, Bool.and_false]
    · rw [decide_eq_false listed, Bool.false_and]

theorem maskOf_and_mask {controls : List ℕ} {range : QubitRange}
    (apart : ∀ control ∈ controls, range.contains control = false) :
    maskOf controls &&& range.mask = 0 :=
  maskOf_and_eq_zero_iff.mpr fun control listed =>
    (range.testBit_mask control).trans (apart control listed)

theorem hasAll_maskOf {controls : List ℕ} {index : BasisIndex} :
    index.hasAll (maskOf controls) = true ↔ ∀ control ∈ controls, index.testBit control = true := by
  rw [BasisIndex.hasAll_iff]
  refine forall_congr' fun q => ?_
  rw [testBit_maskOf, decide_eq_true_eq]

theorem operandControls_eq_ok {controls : List ℕ} {operands mask : BasisIndex} :
    v.operandControls controls operands = .ok mask ↔
      (∀ control ∈ controls, control < v.width ∧ operands.testBit control = false) ∧
        mask = maskOf controls := by
  rw [operandControls, Action.bind_eq_ok]
  constructor
  · rintro ⟨mask, found, returned⟩
    obtain ⟨apart, same⟩ := Action.refused_eq_ok.mp returned
    cases same
    rcases v.controlMask_eq controls with ⟨inside, found'⟩ | ⟨-, e, failed⟩
    · cases found.symm.trans found'
      have free := maskOf_and_eq_zero_iff.mp (by simpa using apart)
      exact ⟨fun control listed => ⟨inside control listed, free control listed⟩, rfl⟩
    · cases found.symm.trans failed
  · rintro ⟨accepted, rfl⟩
    rcases v.controlMask_eq controls with ⟨-, found⟩ | ⟨⟨control, listed, outside⟩, -⟩
    · have free := maskOf_and_eq_zero_iff.mpr fun control listed => (accepted control listed).2
      exact ⟨_, found, Action.refused_eq_ok.mpr ⟨by simpa using free, rfl⟩⟩
    · exact absurd (accepted control listed).1 (not_lt.mpr outside)

/-! ## Substitution -/

/-- Entries pass just in case they are distinct and none of them has been seen. -/
theorem distinctBelow_iff {entries : List ℕ} {seen : Array Bool} :
    distinctBelow entries seen = true ↔
      entries.Nodup ∧ ∀ entry ∈ entries, seen[entry]? = some false := by
  induction entries generalizing seen with
  | nil => simp [distinctBelow]
  | cons entry rest ih =>
      rw [distinctBelow, List.nodup_cons, List.forall_mem_cons]
      cases marked : seen[entry]? with
      | none => simp
      | some mark =>
          cases mark with
          | true => simp
          | false =>
              have bound : entry < seen.size := (Array.getElem?_eq_some_iff.mp marked).1
              have later : (∀ other ∈ rest, (seen.setIfInBounds entry true)[other]? = some false) ↔
                  entry ∉ rest ∧ ∀ other ∈ rest, seen[other]? = some false := by
                constructor
                · intro free
                  refine ⟨fun listed => ?_, fun other listed => ?_⟩
                  · have again := free entry listed
                    rw [Array.getElem?_setIfInBounds_self_of_lt bound] at again
                    cases again
                  · have unmarked := free other listed
                    rw [Array.getElem?_setIfInBounds] at unmarked
                    split at unmarked
                    · cases unmarked
                    · exact unmarked
                · rintro ⟨fresh, free⟩ other listed
                  have different : entry ≠ other := fun same => fresh (same ▸ listed)
                  rw [Array.getElem?_setIfInBounds_ne different]
                  exact free other listed
              simp only [ih, later]
              tauto

/-- A table that gives every number of a range another number of the range. -/
def Permutes (entry : ℕ → ℕ) (range : QubitRange) : Prop :=
  Set.InjOn entry (Set.Iio range.span) ∧ Set.MapsTo entry (Set.Iio range.span) (Set.Iio range.span)

theorem permutes_iff {entry : ℕ → ℕ} {range : QubitRange} :
    distinctBelow ((List.range range.span).map entry) (.replicate range.span false) = true ↔
      Permutes entry range := by
  rw [distinctBelow_iff, Permutes]
  refine and_congr ⟨fun nodup i below j below' same => ?_, fun injective => ?_⟩ ?_
  · exact List.inj_on_of_nodup_map nodup (List.mem_range.mpr below) (List.mem_range.mpr below') same
  · refine List.Nodup.map_on (fun i listed j listed' same => ?_) List.nodup_range
    exact injective (List.mem_range.mp listed) (List.mem_range.mp listed') same
  · simp [Array.getElem?_replicate, Set.MapsTo]

def substituteIndex (entry : ℕ → ℕ) (range : QubitRange) (index : BasisIndex) : BasisIndex :=
  range.write index (entry (range.read index))

theorem Permutes.bijOn_substituteIndex {entry : ℕ → ℕ} {range : QubitRange}
    (permutes : Permutes entry range) (inside : range.stop ≤ width) :
    Set.BijOn (substituteIndex entry range) (Set.Iio (2 ^ width)) (Set.Iio (2 ^ width)) := by
  obtain ⟨injective, below⟩ := permutes
  have held (index : BasisIndex) : entry (range.read index) < range.span :=
    below (range.read_lt index)
  have maps : Set.MapsTo (substituteIndex entry range) (Set.Iio (2 ^ width)) (Set.Iio (2 ^ width)) :=
    fun index bound => QubitRange.write_lt bound inside (held index)
  refine ((Set.finite_Iio (2 ^ width)).injOn_iff_bijOn_of_mapsTo maps).mp ?_
  intro index _ other _ same
  have reads := congrArg range.read same
  unfold substituteIndex at same reads
  rw [QubitRange.read_write (held index), QubitRange.read_write (held other)] at reads
  have numbers : range.read index = range.read other :=
    injective (range.read_lt index) (range.read_lt other) reads
  have restored := congrArg (range.write · (range.read index)) same
  rw [QubitRange.write_write (held index) (range.read_lt index),
    QubitRange.write_write (held other) (range.read_lt index), QubitRange.write_read, numbers,
    QubitRange.write_read] at restored
  exact restored

/-! ## Calls -/

/-- An operator that only moves and negates amplitudes, with its operands. -/
inductive ReversibleCall where
  | add (addend : ℕ) (range : QubitRange) (controls : List ℕ)
  | addCarry (addend : ℕ) (range : QubitRange) (carry : ℕ)
  | addSigned (addend : ℕ) (range : QubitRange) (overflow : ℕ)
  | addSignedCarry (addend : ℕ) (range : QubitRange) (overflow : Option ℕ) (carry : ℕ)
  | addDecimal (addend : ℕ) (range : QubitRange)
  | addDecimalCarry (addend : ℕ) (range : QubitRange) (carry : ℕ)
  | load (argument value : QubitRange) (table : Array UInt8)
  | substitute (range : QubitRange) (table : Array UInt8)
  | negateBelow (bound : ℕ) (range : QubitRange) (flag : Option ℕ)

namespace ReversibleCall

noncomputable def run (v : StateVector ℝ) : ReversibleCall → Except VectorError (StateVector ℝ)
  | add addend range controls => v.add addend range controls
  | addCarry addend range carry => v.addCarry addend range carry
  | addSigned addend range overflow => v.addSigned addend range overflow
  | addSignedCarry addend range overflow carry => v.addSignedCarry addend range overflow carry
  | addDecimal addend range => v.addDecimal addend range
  | addDecimalCarry addend range carry => v.addDecimalCarry addend range carry
  | load argument value table => (v.load argument value table).map Prod.snd
  | substitute range table => v.substitute range table
  | negateBelow bound range flag => v.negateBelow bound range flag

/-- The state vector that the call leaves behind, also if it is refused. -/
noncomputable def left (v : StateVector ℝ) : ReversibleCall → StateVector ℝ
  | add addend range controls => (Update.add addend range controls).left v
  | addCarry addend range carry => (Update.addCarry addend range carry).left v
  | addSigned addend range overflow => (Update.addSigned addend range overflow).left v
  | addSignedCarry addend range overflow carry =>
      (Update.addSignedCarry addend range overflow carry).left v
  | addDecimal addend range => (Update.addDecimal addend range).left v
  | addDecimalCarry addend range carry => (Update.addDecimalCarry addend range carry).left v
  | load argument value table => (Update.load argument value table).left v
  | substitute range table => (Update.substitute range table).left v
  | negateBelow bound range flag => (Update.negateBelow bound range flag).left v

def place : ReversibleCall → BasisIndex → BasisIndex
  | add addend range controls => addIndex addend range (maskOf controls)
  | addCarry addend range carry => addCarryIndex addend range carry
  | addSigned addend range _ => addIndex (addend % range.span) range 0
  | addSignedCarry addend range _ carry => addCarryIndex addend range carry
  | addDecimal addend range => addDecimalIndex addend (range.length / 4) range
  | addDecimalCarry addend range carry => addDecimalCarryIndex addend (range.length / 4) range carry
  | load argument value table => loadIndex table argument value
  | substitute range table => substituteIndex (tableEntry table range.length) range
  | negateBelow _ _ _ => id

def negates : ReversibleCall → BasisIndex → Bool
  | addSigned addend range overflow => fun index =>
      overflowsAt addend range index && index.bit overflow
  | addSignedCarry addend range overflow carry => fun index =>
      overflows range.length (range.read index) (addend % range.span)
          (range.read (addCarryIndex addend range carry index)) &&
        overflow.all fun qubit => index.bit qubit
  | negateBelow bound range flag => fun index =>
      flag.all (fun qubit => index.bit qubit) && range.read index < bound
  | _ => fun _ => false

def Writes : ReversibleCall → ℕ → Prop
  | add _ range _ | addSigned _ range _ | addDecimal _ range | substitute range _ =>
      fun q => range.contains q = true
  | addCarry _ range carry | addSignedCarry _ range _ carry | addDecimalCarry _ range carry =>
      fun q => range.contains q = true ∨ q = carry
  | load _ value _ => fun q => value.contains q = true
  | negateBelow _ _ _ => fun _ => False

/-- The qubits of the operands that are only read: controls, flags and the argument of a table. -/
def Reads : ReversibleCall → ℕ → Prop
  | add _ _ controls => fun q => q ∈ controls
  | addSigned _ _ overflow => fun q => q = overflow
  | addSignedCarry _ _ overflow _ => fun q => q ∈ overflow
  | load argument _ _ => fun q => argument.contains q = true
  | negateBelow _ range flag => fun q => range.contains q = true ∨ q ∈ flag
  | _ => fun _ => False

/-- The operands are those of a register of the given width. -/
def Accepts (width : ℕ) : ReversibleCall → Prop
  | add _ range controls => range.length ≠ 0 ∧ range.stop ≤ width ∧
      ∀ control ∈ controls, control < width ∧ range.contains control = false
  | addCarry _ range carry => Carried range carry width
  | addSigned _ range overflow => Carried range overflow width
  | addSignedCarry _ range overflow carry => Carried range carry width ∧
      ∀ qubit ∈ overflow, qubit < width ∧ range.contains qubit = false ∧ qubit ≠ carry
  | addDecimal _ range => range.length ≠ 0 ∧ range.stop ≤ width ∧ range.length % 4 = 0
  | addDecimalCarry _ range carry => Carried range carry width ∧ range.length % 4 = 0
  | load argument value table => argument.length ≠ 0 ∧ argument.stop ≤ width ∧
      value.length ≠ 0 ∧ value.stop ≤ width ∧ argument.Disjoint value ∧
      argument.span * entryBytes value.length ≤ table.size
  | substitute range table => range.length ≠ 0 ∧ range.stop ≤ width ∧
      range.span * entryBytes range.length ≤ table.size ∧
      Permutes (tableEntry table range.length) range
  | negateBelow _ range flag => range.length ≠ 0 ∧ range.stop ≤ width ∧
      ∀ qubit ∈ flag, qubit < width ∧ range.contains qubit = false

open Update

variable {call : ReversibleCall}

/-! ## Places -/

theorem bijOn_place (accepts : call.Accepts width) :
    Set.BijOn call.place (Set.Iio (2 ^ width)) (Set.Iio (2 ^ width)) := by
  cases call with
  | add addend range controls =>
      obtain ⟨-, inside, apart⟩ := accepts
      have free := maskOf_and_mask fun control listed => (apart control listed).2
      rw [place, Code.addIndex_eq]
      exact ((Code.lawful_binary range.length).narrow inside free).bijOn_add addend
  | addCarry addend range carry => exact accepts.bijOn_addCarryIndex addend
  | addSigned addend range overflow =>
      rw [place, Code.addIndex_eq]
      exact ((Code.lawful_binary range.length).narrow accepts.inside (Nat.zero_and _)).bijOn_add _
  | addSignedCarry addend range overflow carry => exact accepts.1.bijOn_addCarryIndex addend
  | addDecimal addend range =>
      obtain ⟨-, inside, digits⟩ := accepts
      have lawful := Code.lawful_decimal (Nat.mul_div_cancel' (Nat.dvd_of_mod_eq_zero digits))
      rw [place, Code.addDecimalIndex_eq]
      exact (lawful.narrow inside (Nat.zero_and _)).bijOn_add addend
  | addDecimalCarry addend range carry =>
      exact accepts.1.bijOn_addDecimalCarryIndex accepts.2 addend
  | load argument value table =>
      obtain ⟨-, -, -, inside, disjoint, -⟩ := accepts
      exact bijOn_loadIndex disjoint inside
  | substitute range table =>
      obtain ⟨-, inside, -, permutes⟩ := accepts
      exact permutes.bijOn_substituteIndex inside
  | negateBelow bound range flag => exact Set.bijOn_id _

theorem testBit_place (accepts : call.Accepts width) (index : BasisIndex) {q : ℕ}
    (outside : ¬ call.Writes q) : (call.place index).testBit q = index.testBit q := by
  cases call with
  | add addend range controls => exact testBit_addIndex (Bool.eq_false_iff.mpr outside) ..
  | addSigned addend range overflow => exact testBit_addIndex (Bool.eq_false_iff.mpr outside) ..
  | addCarry addend range carry | addSignedCarry addend range overflow carry =>
      have lawful := Code.lawful_binary range.length
      rw [place, Code.addCarryIndex_eq]
      exact lawful.wide_writesOnly.testBit_add (Nat.mul_pos two_pos lawful.span_pos) _ _ outside
  | addDecimal addend range =>
      obtain ⟨-, -, digits⟩ := accepts
      have lawful := Code.lawful_decimal (Nat.mul_div_cancel' (Nat.dvd_of_mod_eq_zero digits))
      rw [place, Code.addDecimalIndex_eq]
      exact (lawful.narrow_writesOnly _).testBit_add lawful.span_pos _ _ outside
  | addDecimalCarry addend range carry =>
      have lawful := Code.lawful_decimal
        (Nat.mul_div_cancel' (Nat.dvd_of_mod_eq_zero accepts.2))
      rw [place, Code.addDecimalCarryIndex_eq]
      exact lawful.wide_writesOnly.testBit_add (Nat.mul_pos two_pos lawful.span_pos) _ _ outside
  | load argument value table =>
      rw [place, loadIndex, Nat.testBit_xor, QubitRange.testBit_shiftLeft_of_not_mem
        (tableEntry_lt table value _) (Bool.eq_false_iff.mpr outside), Bool.xor_false]
  | substitute range table =>
      obtain ⟨-, -, -, permutes⟩ := accepts
      exact QubitRange.testBit_write_of_not_mem (permutes.2 (range.read_lt index))
        (Bool.eq_false_iff.mpr outside)
  | negateBelow bound range flag => rfl

theorem not_writes_of_reads (accepts : call.Accepts width) {q : ℕ} (reads : call.Reads q) :
    ¬ call.Writes q := by
  cases call with
  | add addend range controls => simp [Writes, (accepts.2.2 q reads).2]
  | addSigned addend range overflow =>
      obtain rfl : q = overflow := reads
      simp [Writes, accepts.outside]
  | addSignedCarry addend range overflow carry =>
      obtain ⟨-, outside, different⟩ := accepts.2 q reads
      simp [Writes, outside, different]
  | load argument value table =>
      obtain ⟨-, -, -, -, disjoint, -⟩ := accepts
      simp [Writes, disjoint q reads]
  | negateBelow bound range flag => exact id
  | addCarry | addDecimal | addDecimalCarry | substitute => exact reads.elim

/-! ## Runs -/

noncomputable def result (v : StateVector ℝ) : ReversibleCall → StateVector ℝ
  | negateBelow bound range flag => v.negateWhere (negates (negateBelow bound range flag))
  | addSigned addend range overflow =>
      v.overwrite (place (addSigned addend range overflow))
        (negates (addSigned addend range overflow))
  | addSignedCarry addend range overflow carry =>
      v.overwrite (place (addSignedCarry addend range overflow carry))
        (negates (addSignedCarry addend range overflow carry))
  | call => v.scatter fun index => some (call.place index)

theorem checkTable_eq_ok {table : Array UInt8} {entries length : ℕ} :
    checkTable table entries length = .ok () ↔ entries * entryBytes length ≤ table.size := by
  unfold checkTable
  dsimp only
  split
  · next short => exact iff_of_false nofun (not_le.mpr short)
  · next enough => exact iff_of_true rfl (not_lt.mp enough)

theorem checkTable_eq_error {table : Array UInt8} {entries length : ℕ} {e : VectorError} :
    checkTable table entries length = .error e ↔
      table.size < entries * entryBytes length ∧
        e = .tableTooShort (entries * entryBytes length) table.size := by
  unfold checkTable
  dsimp only
  split
  · next short => simp [short, eq_comm]
  · next enough => simp [enough]

/-- A carried range and an overflow qubit are accepted if no qubit is among them twice. -/
theorem checkDisjoint_signed {range : QubitRange} {carry : ℕ} {overflow : Option ℕ} :
    v.checkDisjoint ([range, .single carry] ++ overflow.toList.map .single) = .ok () ↔
      Carried range carry v.width ∧
        ∀ qubit ∈ overflow, qubit < v.width ∧ range.contains qubit = false ∧ qubit ≠ carry := by
  constructor
  · intro accepted
    obtain ⟨ranged, apart⟩ := checkDisjoint_eq_ok.mp accepted
    have carried : Carried range carry v.width := checkDisjoint_carry.mp <| checkDisjoint_eq_ok.mpr
      ⟨fun r listed => ranged r (List.mem_append_left _ listed), (List.pairwise_append.mp apart).1⟩
    have below (qubit : ℕ) (given : qubit ∈ overflow) : qubit < v.width :=
      checkRange_single.mp <| ranged _ <| List.mem_append_right _ <|
        List.mem_map_of_mem (Option.mem_toList.mpr given)
    exact ⟨carried, fun qubit given =>
      ⟨below qubit given, (checkDisjoint_overflow carried below).mp accepted qubit given⟩⟩
  · rintro ⟨carried, free⟩
    exact (checkDisjoint_overflow carried fun qubit given => (free qubit given).1).mpr
      fun qubit given => (free qubit given).2

/-- A comparison is accepted if the flag is a qubit outside the range. -/
theorem checkCompared_eq_ok {range : QubitRange} {flag : Option ℕ} :
    v.checkCompared range flag = .ok () ↔ range.length ≠ 0 ∧ range.stop ≤ v.width ∧
      ∀ qubit ∈ flag, qubit < v.width ∧ range.contains qubit = false := by
  cases flag with
  | none => simp [checkCompared, checkRange_eq_ok]
  | some qubit =>
      rw [checkCompared, checkDisjoint_carry]
      constructor
      · rintro ⟨nonempty, inside, below, outside⟩
        exact ⟨nonempty, inside, fun _ same => Option.mem_some.mp same ▸ ⟨below, outside⟩⟩
      · rintro ⟨nonempty, inside, free⟩
        exact ⟨nonempty, inside, (free qubit rfl).1, (free qubit rfl).2⟩

theorem checkDecimal_eq_ok {range : QubitRange} {digits : ℕ} :
    v.checkDecimal range = .ok digits ↔
      (range.length ≠ 0 ∧ range.stop ≤ v.width) ∧ range.length % 4 = 0 ∧
        range.length / 4 = digits := by
  rw [checkDecimal, Action.checks_eq_ok, checkRange_eq_ok, Action.refused_eq_ok]
  simp [pure, Except.pure]

/-- A call returns just in case its operands are accepted, whatever the amplitudes are. -/
theorem run_eq_ok {v' : StateVector ℝ} :
    call.run v = .ok v' ↔ call.Accepts v.width ∧ call.result v = v' := by
  cases call with
  | add addend range controls =>
      rw [run, StateVector.add, Update.add, changed_check_bind_eq_ok, checkRange_eq_ok,
        changed_query_bind_eq_ok]
      simp only [operandControls_eq_ok, QubitRange.testBit_mask, changed_modify]
      constructor
      · rintro ⟨⟨nonempty, inside⟩, _, ⟨apart, rfl⟩, returned⟩
        exact ⟨⟨nonempty, inside, apart⟩, Except.ok.inj returned⟩
      · rintro ⟨⟨nonempty, inside, apart⟩, rfl⟩
        exact ⟨⟨nonempty, inside⟩, _, ⟨apart, rfl⟩, rfl⟩
  | addCarry addend range carry =>
      rw [run, StateVector.addCarry, Update.addCarry, changed_check_bind_eq_ok, checkDisjoint_carry]
      exact and_congr_right fun _ => .of_eq (Except.ok.injEq ..)
  | addSigned addend range overflow =>
      rw [run, StateVector.addSigned, Update.addSigned, changed_check_bind_eq_ok,
        checkDisjoint_carry]
      exact and_congr_right fun _ => .of_eq (Except.ok.injEq ..)
  | addSignedCarry addend range overflow carry =>
      rw [run, StateVector.addSignedCarry, Update.addSignedCarry, changed_check_bind_eq_ok,
        checkDisjoint_signed]
      exact and_congr_right fun _ => .of_eq (Except.ok.injEq ..)
  | addDecimal addend range =>
      rw [run, StateVector.addDecimal, Update.addDecimal, changed_query_bind_eq_ok]
      simp only [checkDecimal_eq_ok, changed_modify]
      constructor
      · rintro ⟨_, ⟨⟨nonempty, inside⟩, whole, rfl⟩, returned⟩
        exact ⟨⟨nonempty, inside, whole⟩, Except.ok.inj returned⟩
      · rintro ⟨⟨nonempty, inside, whole⟩, rfl⟩
        exact ⟨_, ⟨⟨nonempty, inside⟩, whole, rfl⟩, rfl⟩
  | addDecimalCarry addend range carry =>
      rw [run, StateVector.addDecimalCarry, Update.addDecimalCarry, changed_query_bind_eq_ok]
      simp only [checkDecimal_eq_ok, changed_check_bind_eq_ok, checkDisjoint_carry, changed_modify]
      constructor
      · rintro ⟨_, ⟨-, whole, rfl⟩, carried, returned⟩
        exact ⟨⟨carried, whole⟩, Except.ok.inj returned⟩
      · rintro ⟨⟨carried, whole⟩, rfl⟩
        exact ⟨_, ⟨⟨carried.nonempty, carried.inside⟩, whole, rfl⟩, carried, rfl⟩
  | load argument value table =>
      change (Update.load argument value table).changed v = .ok v' ↔ _
      rw [Update.load, changed_check_bind_eq_ok, changed_check_bind_eq_ok, checkDisjoint_pair,
        checkRange_eq_ok, checkRange_eq_ok, checkTable_eq_ok]
      constructor
      · rintro ⟨⟨⟨⟨nonempty, inside⟩, valueNonempty, valueInside⟩, disjoint⟩, enough, returned⟩
        exact ⟨⟨nonempty, inside, valueNonempty, valueInside, disjoint, enough⟩,
          Except.ok.inj returned⟩
      · rintro ⟨⟨nonempty, inside, valueNonempty, valueInside, disjoint, enough⟩, rfl⟩
        exact ⟨⟨⟨⟨nonempty, inside⟩, valueNonempty, valueInside⟩, disjoint⟩, enough, rfl⟩
  | substitute range table =>
      rw [run, StateVector.substitute, Update.substitute, changed_check_bind_eq_ok,
        changed_check_bind_eq_ok, changed_refused_eq_ok, checkRange_eq_ok, checkTable_eq_ok,
        Bool.not_eq_true', Bool.not_eq_false, permutes_iff, changed_modify]
      constructor
      · rintro ⟨⟨nonempty, inside⟩, enough, permutes, returned⟩
        exact ⟨⟨nonempty, inside, enough, permutes⟩, Except.ok.inj returned⟩
      · rintro ⟨⟨nonempty, inside, enough, permutes⟩, rfl⟩
        exact ⟨⟨nonempty, inside⟩, enough, permutes, rfl⟩
  | negateBelow bound range flag =>
      rw [run, StateVector.negateBelow, Update.negateBelow, changed_check_bind_eq_ok,
        checkCompared_eq_ok, changed_modify, Except.ok.injEq]
      rfl

/-- All operands are checked before anything is written. -/
theorem left_of_error {e : VectorError} (failed : call.run v = .error e) : call.left v = v := by
  cases call with
  | add =>
      exact ChecksFirst.left_eq (.check_bind _ (.query_bind _ fun _ => .modify _)) failed
  | addCarry | addSigned | addSignedCarry | negateBelow =>
      exact ChecksFirst.left_eq (.check_bind _ (.modify _)) failed
  | addDecimal => exact ChecksFirst.left_eq (.query_bind _ fun _ => .modify _) failed
  | addDecimalCarry =>
      exact ChecksFirst.left_eq (.query_bind _ fun _ => .check_bind _ (.modify _)) failed
  | load =>
      exact ChecksFirst.left_eq (.check_bind _ (.check_bind _ fun _ _ => nofun)) failed
  | substitute =>
      exact ChecksFirst.left_eq (.check_bind _ (.check_bind _ (.refused_bind (.modify _)))) failed

/-- The amplitudes go to their places, and some of them are negated. -/
theorem rearranges_result (size : v.amplitudes.size = 2 ^ v.width) (accepts : call.Accepts v.width) :
    v.Rearranges (call.result v) call.place call.negates := by
  have bijective := size ▸ bijOn_place accepts
  cases call with
  | negateBelow bound range flag => exact rearranges_negateWhere v _
  | addSigned | addSignedCarry => exact rearranges_overwrite bijective _
  | _ => exact rearranges_scatter bijective

theorem exists_run (size : v.amplitudes.size = 2 ^ v.width) (accepts : call.Accepts v.width) :
    ∃ v', call.run v = .ok v' ∧ v.Rearranges v' call.place call.negates :=
  ⟨_, run_eq_ok.mpr ⟨accepts, rfl⟩, rearranges_result size accepts⟩

theorem exists_error (refuses : ¬call.Accepts v.width) : ∃ e, call.run v = .error e := by
  cases ran : call.run v with
  | error e => exact ⟨e, rfl⟩
  | ok v' => exact absurd (run_eq_ok.mp ran).1 refuses

theorem width_result (v : StateVector ℝ) (call : ReversibleCall) :
    (call.result v).width = v.width := by
  cases call <;> rfl

/-! ## Taking back -/

theorem generator_result (v : StateVector ℝ) (call : ReversibleCall) :
    (call.result v).generator = v.generator := by
  cases call <;> rfl

theorem capabilities_result (v : StateVector ℝ) (call : ReversibleCall) :
    (call.result v).capabilities = v.capabilities := by
  cases call <;> rfl

/-- Two calls that negate nothing and whose places are inverse take each other back. -/
theorem run_back (call back : ReversibleCall)
    (size : v.amplitudes.size = 2 ^ v.width) (accepts : call.Accepts v.width)
    (accepts' : back.Accepts v.width)
    (plain : ∀ index, call.negates index = false) (plain' : ∀ index, back.negates index = false)
    (restores : ∀ index, back.place (call.place index) = index) :
    back.run (call.result v) = .ok v := by
  have width := call.width_result v
  rw [← width] at accepts'
  obtain ⟨size', bijective, moved⟩ := rearranges_result size accepts
  obtain ⟨size'', -, moved'⟩ := rearranges_result (by rw [size', size, width]) accepts'
  refine run_eq_ok.mpr ⟨accepts', eq_of_amplitudeD ?_ ?_ ?_ (size''.trans size') ?_⟩
  · rw [width_result, width_result]
  · rw [generator_result, generator_result]
  · rw [capabilities_result, capabilities_result]
  · intro index below
    rw [size'', size'] at below
    have fetched := moved' (call.place index) ((bijective.mapsTo below).trans_eq size'.symm)
    rw [plain', restores, moved index below, plain] at fetched
    exact fetched

end ReversibleCall

/-- A reversible operator accepts exactly operands of the register that are apart.  It permutes the
basis states and negates some of them, changes no qubit but those it writes, and keeps the norm.  A
refused operator keeps the state vector. -/
theorem reversible_call_permutes (size : v.amplitudes.size = 2 ^ v.width) (call : ReversibleCall) :
    ((∃ v', call.run v = .ok v') ↔ call.Accepts v.width) ∧
    (∀ v', call.run v = .ok v' →
      Set.BijOn call.place (Set.Iio (2 ^ v.width)) (Set.Iio (2 ^ v.width)) ∧
      (∀ index < 2 ^ v.width, v'.amplitudeD (call.place index) =
        if call.negates index then -v.amplitudeD index else v.amplitudeD index) ∧
      (∀ index q, ¬ call.Writes q → (call.place index).testBit q = index.testBit q) ∧
      (∀ q, call.Reads q → ¬ call.Writes q) ∧
      v'.width = v.width ∧ v'.amplitudes.size = 2 ^ v.width ∧ v'.normSq = v.normSq) ∧
    ∀ e, call.run v = .error e → call.left v = v := by
  refine ⟨⟨?_, ?_⟩, ?_, ?_⟩
  · rintro ⟨v', ran⟩
    exact (ReversibleCall.run_eq_ok.mp ran).1
  · intro accepts
    exact ⟨_, ReversibleCall.run_eq_ok.mpr ⟨accepts, rfl⟩⟩
  · intro v' ran
    obtain ⟨accepts, rfl⟩ := ReversibleCall.run_eq_ok.mp ran
    have rearranges := ReversibleCall.rearranges_result size accepts
    refine ⟨call.bijOn_place accepts, fun index below => ?_, fun index q outside =>
      call.testBit_place accepts index outside, fun q => call.not_writes_of_reads accepts,
      call.width_result v, rearranges.1.trans size, rearranges.normSq_eq⟩
    exact rearranges.2.2 index (below.trans_eq size.symm)
  · exact fun e failed => ReversibleCall.left_of_error failed

/-- One is added to a range of two qubits: 1 goes to 2, negated where the overflow qubit is set. -/
theorem reversible_addSigned_permutes :
    let v : StateVector ℝ := ⟨3, Array.ofFn fun index : Fin 8 => ⟨(index : ℕ), 0⟩, .ofSeed 0, .all⟩
    v.amplitudes.size = 2 ^ v.width ∧
      ∃ v', v.addSigned 1 ⟨0, 2⟩ 2 = .ok v' ∧ v'.amplitudeD 2 = ⟨1, 0⟩ ∧
        v'.amplitudeD 6 = -⟨5, 0⟩ ∧ v'.normSq = v.normSq := by
  intro v
  have size : v.amplitudes.size = 2 ^ v.width := Array.size_ofFn
  refine ⟨size, ?_⟩
  obtain ⟨accepts, moves, -⟩ := reversible_call_permutes size (.addSigned 1 ⟨0, 2⟩ 2)
  have carried : Carried ⟨0, 2⟩ 2 v.width := ⟨by decide, by decide, by decide, by decide⟩
  obtain ⟨v', ran⟩ := accepts.mpr carried
  obtain ⟨-, moved, -, -, -, -, norm⟩ := moves v' ran
  refine ⟨v', ran, ?_, ?_, norm⟩
  · have plain := moved 1 (by decide)
    rw [show ReversibleCall.place (.addSigned 1 ⟨0, 2⟩ 2) 1 = 2 by decide,
      show ReversibleCall.negates (.addSigned 1 ⟨0, 2⟩ 2) 1 = false by decide] at plain
    simpa [v, amplitudeD] using plain
  · have negated := moved 5 (by decide)
    rw [show ReversibleCall.place (.addSigned 1 ⟨0, 2⟩ 2) 5 = 6 by decide,
      show ReversibleCall.negates (.addSigned 1 ⟨0, 2⟩ 2) 5 = true by decide] at negated
    simpa [v, amplitudeD] using negated

end AmplitudeTree.StateVector
