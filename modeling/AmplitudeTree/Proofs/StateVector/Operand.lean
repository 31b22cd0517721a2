import AmplitudeTree.Proofs.BasisIndex
import AmplitudeTree.StateVector.Arithmetic
import Mathlib.Algebra.Order.Group.Nat
import Mathlib.Data.Set.Function
import Mathlib.Order.Interval.Set.Defs

/-!
# Operands

An operand is a number held by some qubits of an index.  Binary and decimal ranges, with or without
a carry qubit at the top, are read and written in different ways, but addition is the same for all
of them: modulo the span of the operand it permutes the indices of a register.
-/

namespace AmplitudeTree.StateVector

/-- A number that an index may hold. -/
structure Operand where
  span : ℕ
  read : BasisIndex → Option ℕ
  write : BasisIndex → ℕ → BasisIndex

namespace Operand

variable {o : Operand} {width : ℕ}

/-- Adds to the number that an index holds; an index that holds none stays. -/
def add (o : Operand) (addend : ℕ) (index : BasisIndex) : BasisIndex :=
  match o.read index with
  | some value => o.write index ((value + addend) % o.span)
  | none => index

/-- What is read is what was written, and nothing else changes, on the indices of `width` qubits. -/
structure Lawful (o : Operand) (width : ℕ) : Prop where
  span_pos : 0 < o.span
  read_lt {index value} (holds : o.read index = some value) : value < o.span
  read_write {index value value'} (holds : o.read index = some value) (below : value' < o.span) :
    o.read (o.write index value') = some value'
  write_read {index value} (holds : o.read index = some value) : o.write index value = index
  write_write {index value value'} (below : value < o.span) (below' : value' < o.span) :
    o.write (o.write index value) value' = o.write index value'
  write_lt {index value} (bound : index < 2 ^ width) (below : value < o.span) :
    o.write index value < 2 ^ width

theorem Lawful.read_add (lawful : o.Lawful width) {index : BasisIndex} {value : ℕ}
    (holds : o.read index = some value) (addend : ℕ) :
    o.read (o.add addend index) = some ((value + addend) % o.span) := by
  unfold add
  rw [holds]
  exact lawful.read_write holds (Nat.mod_lt _ lawful.span_pos)

theorem add_mod (o : Operand) (addend : ℕ) : o.add (addend % o.span) = o.add addend := by
  funext index
  unfold add
  cases o.read index with
  | none => rfl
  | some value =>
      dsimp only
      rw [Nat.add_mod_mod]

theorem Lawful.add_zero (lawful : o.Lawful width) (index : BasisIndex) : o.add 0 index = index := by
  unfold add
  cases holds : o.read index with
  | none => rfl
  | some value =>
      dsimp only
      rw [Nat.add_zero, Nat.mod_eq_of_lt (lawful.read_lt holds), lawful.write_read holds]

/-- Two numbers may be added at once. -/
theorem Lawful.add_add (lawful : o.Lawful width) (addend addend' : ℕ) (index : BasisIndex) :
    o.add addend' (o.add addend index) = o.add (addend + addend') index := by
  have below (total : ℕ) : total % o.span < o.span := Nat.mod_lt _ lawful.span_pos
  cases holds : o.read index with
  | none => simp only [add, holds]
  | some value =>
      have sum := lawful.read_add holds addend
      simp only [add, holds] at sum ⊢
      rw [sum]
      dsimp only
      rw [lawful.write_write (below _) (below _), Nat.mod_add_mod, Nat.add_assoc]

/-- Numbers that add up to a multiple of the span take each other back. -/
theorem Lawful.add_back (lawful : o.Lawful width) {addend addend' : ℕ}
    (back : (addend + addend') % o.span = 0) (index : BasisIndex) :
    o.add addend' (o.add addend index) = index := by
  rw [lawful.add_add, ← add_mod, back, lawful.add_zero]

theorem Lawful.add_lt (lawful : o.Lawful width) (addend : ℕ) {index : BasisIndex}
    (bound : index < 2 ^ width) : o.add addend index < 2 ^ width := by
  unfold add
  cases holds : o.read index with
  | none => exact bound
  | some value => exact lawful.write_lt bound (Nat.mod_lt _ lawful.span_pos)

/-- Addition permutes the indices of a register. -/
theorem Lawful.bijOn_add (lawful : o.Lawful width) (addend : ℕ) :
    Set.BijOn (o.add addend) (Set.Iio (2 ^ width)) (Set.Iio (2 ^ width)) := by
  have back : (addend + (o.span - addend % o.span)) % o.span = 0 := by
    have parts := Nat.div_add_mod addend o.span
    have below := Nat.mod_lt addend lawful.span_pos
    have whole : addend + (o.span - addend % o.span) = o.span * (addend / o.span + 1) := by
      rw [Nat.mul_succ]
      omega
    rw [whole, Nat.mul_mod_right]
  refine Set.InvOn.bijOn ⟨fun index _ => lawful.add_back back index, fun index _ => ?_⟩
    (fun index bound => lawful.add_lt _ bound) (fun index bound => lawful.add_lt _ bound)
  exact lawful.add_back (by rwa [Nat.add_comm]) index

def WritesOnly (o : Operand) (written : ℕ → Prop) : Prop :=
  ∀ index value q, value < o.span → ¬ written q →
    (o.write index value).testBit q = index.testBit q

theorem WritesOnly.testBit_add {written : ℕ → Prop} {q : ℕ} (writes : o.WritesOnly written)
    (positive : 0 < o.span) (addend : ℕ) (index : BasisIndex) (outside : ¬ written q) :
    (o.add addend index).testBit q = index.testBit q := by
  unfold add
  cases o.read index with
  | none => rfl
  | some value => exact writes index _ q (Nat.mod_lt _ positive) outside

end Operand

/-! ## Numbers in ranges -/

/-- How numbers below a span are written in the qubits of a range. -/
structure Code where
  span : ℕ
  decode : ℕ → Option ℕ
  encode : ℕ → ℕ

namespace Code

variable {code : Code} {range : QubitRange} {carry length width : ℕ}

/-- Every number below the span has one encoding of `length` bits. -/
structure Lawful (code : Code) (length : ℕ) : Prop where
  span_pos : 0 < code.span
  encode_lt {value} (below : value < code.span) : code.encode value < 2 ^ length
  decode_encode {value} (below : value < code.span) : code.decode (code.encode value) = some value
  of_decode {raw value} (below : raw < 2 ^ length) (decodes : code.decode raw = some value) :
    value < code.span ∧ code.encode value = raw

def binary (length : ℕ) : Code := ⟨2 ^ length, some, id⟩

theorem lawful_binary (length : ℕ) : (binary length).Lawful length where
  span_pos := Nat.two_pow_pos _
  encode_lt below := below
  decode_encode _ := rfl
  of_decode below decodes := Option.some.inj decodes ▸ ⟨below, rfl⟩

def decimal (digits : ℕ) : Code := ⟨10 ^ digits, decodeDecimal digits, encodeDecimal digits⟩

theorem encodeDecimal_lt (digits value : ℕ) : encodeDecimal digits value < 16 ^ digits := by
  induction digits generalizing value with
  | zero => exact Nat.one_pos
  | succ digits ih =>
      have rest := ih (value / 10)
      have digit := Nat.mod_lt value (show 0 < 10 by decide)
      rw [encodeDecimal, pow_succ]
      omega

theorem decodeDecimal_encodeDecimal {digits value : ℕ} (below : value < 10 ^ digits) :
    decodeDecimal digits (encodeDecimal digits value) = some value := by
  induction digits generalizing value with
  | zero => rw [Nat.lt_one_iff.mp below, decodeDecimal]
  | succ digits ih =>
      have digit := Nat.mod_lt value (show 0 < 10 by decide)
      have high : (value % 10 + 16 * encodeDecimal digits (value / 10)) / 16 =
          encodeDecimal digits (value / 10) := by omega
      have low : (value % 10 + 16 * encodeDecimal digits (value / 10)) % 16 = value % 10 := by omega
      rw [encodeDecimal, decodeDecimal, high, low,
        ih (Nat.div_lt_of_lt_mul (by rwa [← pow_succ'])), Option.bind_some, if_pos (by omega),
        Nat.div_add_mod']

theorem encodeDecimal_of_decodeDecimal {digits raw value : ℕ} (below : raw < 16 ^ digits)
    (decodes : decodeDecimal digits raw = some value) :
    value < 10 ^ digits ∧ encodeDecimal digits value = raw := by
  induction digits generalizing raw value with
  | zero =>
      rw [decodeDecimal] at decodes
      cases decodes
      exact ⟨Nat.one_pos, (Nat.lt_one_iff.mp below).symm⟩
  | succ digits ih =>
      rw [decodeDecimal, Option.bind_eq_some_iff] at decodes
      obtain ⟨rest, decoded, last⟩ := decodes
      split at last
      · next digit =>
          cases last
          obtain ⟨restBelow, encoded⟩ := ih (Nat.div_lt_of_lt_mul (by rwa [← pow_succ'])) decoded
          have low : (rest * 10 + raw % 16) % 10 = raw % 16 := by omega
          have high : (rest * 10 + raw % 16) / 10 = rest := by omega
          refine ⟨by rw [pow_succ]; omega, ?_⟩
          rw [encodeDecimal, low, high, encoded, Nat.mod_add_div]
      · cases last

theorem lawful_decimal {digits : ℕ} (fits : 4 * digits = length) :
    (decimal digits).Lawful length := by
  have span : 16 ^ digits = 2 ^ length := by
    rw [← fits, pow_mul]
    rfl
  exact
    { span_pos := Nat.pow_pos (by decide)
      encode_lt := fun {value} _ => span ▸ encodeDecimal_lt digits value
      decode_encode := decodeDecimal_encodeDecimal
      of_decode := fun below decodes => encodeDecimal_of_decodeDecimal (span ▸ below) decodes }

def wide (code : Code) (range : QubitRange) (carry : ℕ) : Operand where
  span := 2 * code.span
  read index := (code.decode (range.read index)).map fun value =>
    value + if index.bit carry then code.span else 0
  write index value := (QubitRange.single carry).write
    (range.write index (code.encode (value % code.span))) (value / code.span)

theorem div_mod_add {span value : ℕ} (below : value < span) (carried : Bool) :
    (value + if carried then span else 0) % span = value ∧
      (value + if carried then span else 0) / span = carried.toNat := by
  have positive : 0 < span := (Nat.zero_le value).trans_lt below
  cases carried with
  | false => simp [Nat.mod_eq_of_lt below, Nat.div_eq_of_lt below]
  | true => simp [Nat.mod_eq_of_lt below, Nat.div_eq_of_lt below, positive]

theorem Lawful.wide_writesOnly (lawful : code.Lawful range.length) :
    (code.wide range carry).WritesOnly fun q => range.contains q = true ∨ q = carry := by
  intro index value q below outside
  have high : value / code.span < (QubitRange.single carry).span :=
    Nat.div_lt_of_lt_mul (below.trans_eq (Nat.mul_comm 2 code.span))
  have low : code.encode (value % code.span) < range.span :=
    lawful.encode_lt (Nat.mod_lt _ lawful.span_pos)
  obtain ⟨outsideRange, notCarry⟩ := not_or.mp outside
  have outsideCarry : (QubitRange.single carry).contains q = false := by
    rw [← Bool.not_eq_true, QubitRange.contains_single]
    exact notCarry
  exact (QubitRange.testBit_write_of_not_mem high outsideCarry).trans
    (QubitRange.testBit_write_of_not_mem low (Bool.eq_false_iff.mpr outsideRange))

/-- The first index with a number stored in its range and a value in its carry qubit. -/
structure Stores (code : Code) (range : QubitRange) (carry : ℕ) (index : BasisIndex) (value : ℕ)
    (set : Bool) (image : BasisIndex) : Prop where
  number : code.decode (range.read image) = some value
  carried : image.testBit carry = set
  others : ∀ q, range.contains q = false → q ≠ carry → image.testBit q = index.testBit q

/-- What an index stores and the qubits of the other index determine it. -/
theorem Stores.eq_write {index image : BasisIndex} {value : ℕ} {set : Bool}
    (stores : code.Stores range carry index value set image) (lawful : code.Lawful range.length) :
    image = (QubitRange.single carry).write (range.write index (code.encode value)) set.toNat := by
  obtain ⟨below, encoded⟩ := lawful.of_decode (range.read_lt image) stores.number
  have low : code.encode value < range.span := lawful.encode_lt below
  have high : set.toNat < (QubitRange.single carry).span := Bool.toNat_lt set
  apply Nat.eq_of_testBit_eq
  intro q
  rw [QubitRange.testBit_write high, QubitRange.testBit_write low]
  by_cases same : q = carry
  · subst same
    rw [if_pos (QubitRange.contains_single.mpr rfl), stores.carried]
    change set = set.toNat.testBit (q - q)
    cases set <;> simp
  · rw [if_neg (mt QubitRange.contains_single.mp same)]
    cases inside : range.contains q with
    | false => exact stores.others q inside same
    | true =>
        obtain ⟨lower, upper⟩ := QubitRange.contains_iff.mp inside
        have within : q - range.start < range.length := by
          rw [QubitRange.stop] at upper
          omega
        rw [if_pos rfl, encoded, QubitRange.testBit_read, decide_eq_true within, Bool.true_and,
          Nat.add_sub_cancel' lower]

/-- What a number has above the span is written to the carry qubit, the rest to the range. -/
theorem Lawful.stores_write (lawful : code.Lawful range.length)
    (outside : range.contains carry = false) (index : BasisIndex) {total : ℕ}
    (below : total < 2 * code.span) :
    code.Stores range carry index (total % code.span) (decide (code.span ≤ total))
      ((code.wide range carry).write index total) := by
  have disjoint : range.Disjoint (.single carry) := QubitRange.disjoint_single.mpr outside
  have low : code.encode (total % code.span) < range.span :=
    lawful.encode_lt (Nat.mod_lt _ lawful.span_pos)
  have high : total / code.span < (QubitRange.single carry).span :=
    Nat.div_lt_of_lt_mul (below.trans_eq (Nat.mul_comm 2 code.span))
  refine ⟨?_, ?_, fun q outsideRange notCarry => lawful.wide_writesOnly index total q below ?_⟩
  · have held : range.read ((code.wide range carry).write index total) =
        code.encode (total % code.span) :=
      (disjoint.symm.read_write high).trans (QubitRange.read_write low)
    rw [held, lawful.decode_encode (Nat.mod_lt _ lawful.span_pos)]
  · have carried : (((code.wide range carry).write index total).bit carry).toNat =
        total / code.span := by
      rw [← QubitRange.read_single]
      exact QubitRange.read_write high
    have reaches : 0 < total / code.span ↔ code.span ≤ total := by
      rw [Nat.div_pos_iff, and_iff_right lawful.span_pos]
    rw [← carried] at reaches
    change ((code.wide range carry).write index total).bit carry = _
    cases set : ((code.wide range carry).write index total).bit carry <;>
      simpa [set, eq_comm] using reaches
  · exact not_or.mpr ⟨Bool.eq_false_iff.mp outsideRange, notCarry⟩

theorem Lawful.wide (lawful : code.Lawful range.length) (outside : range.contains carry = false)
    (inside : range.stop ≤ width) (below : carry < width) : (code.wide range carry).Lawful width := by
  have disjoint : range.Disjoint (.single carry) := QubitRange.disjoint_single.mpr outside
  have low (value : ℕ) : code.encode (value % code.span) < range.span :=
    lawful.encode_lt (Nat.mod_lt _ lawful.span_pos)
  have high {value : ℕ} (below : value < 2 * code.span) :
      value / code.span < (QubitRange.single carry).span :=
    Nat.div_lt_of_lt_mul (by rwa [Nat.mul_comm])
  refine ⟨Nat.mul_pos (by decide) lawful.span_pos, ?_, ?_, ?_, ?_, ?_⟩
  · intro index value holds
    obtain ⟨rest, decodes, rfl⟩ := Option.map_eq_some_iff.mp holds
    have restBelow := (lawful.of_decode (range.read_lt index) decodes).1
    change _ < 2 * code.span
    split <;> omega
  · intro index value value' _ below
    have stores := lawful.stores_write outside index below
    change (code.decode (range.read _)).map (fun value =>
      value + if Nat.testBit _ carry then code.span else 0) = _
    rw [stores.number, stores.carried, Option.map_some, Option.some.injEq]
    by_cases reaches : code.span ≤ value'
    · have rest := Nat.mod_eq_sub_mod reaches
      have once : value' - code.span < code.span := by
        rw [Nat.sub_lt_iff_lt_add reaches, ← Nat.two_mul]
        exact below
      rw [Nat.mod_eq_of_lt once] at rest
      rw [decide_eq_true reaches, if_pos rfl, rest, Nat.sub_add_cancel reaches]
    · rw [decide_eq_false reaches, if_neg Bool.false_ne_true, Nat.add_zero,
        Nat.mod_eq_of_lt (not_le.mp reaches)]
  · intro index value holds
    obtain ⟨rest, decodes, rfl⟩ := Option.map_eq_some_iff.mp holds
    obtain ⟨restBelow, encodes⟩ := lawful.of_decode (range.read_lt index) decodes
    obtain ⟨rest, carried⟩ := div_mod_add restBelow (index.bit carry)
    change QubitRange.write _ (range.write index (code.encode (_ % _))) (_ / _) = index
    rw [rest, carried, encodes, range.write_read, ← QubitRange.read_single,
      QubitRange.write_read]
  · intro index value value' below below'
    change QubitRange.write _ (range.write (QubitRange.write _ (range.write index _) _) _) _ =
      QubitRange.write _ (range.write index _) _
    rw [disjoint.symm.write_comm (high below) (low value'), QubitRange.write_write (high below)
      (high below'), QubitRange.write_write (low value) (low value')]
  · intro index value bound below'
    exact QubitRange.write_lt (QubitRange.write_lt bound inside (low value)) below (high below')

/-- From a clear carry qubit, a sum that carries once leaves its lower part in the range and the
rest in the carry. -/
theorem Lawful.stores_add (lawful : code.Lawful range.length)
    (outside : range.contains carry = false) {index : BasisIndex} {value addend : ℕ}
    (decodes : code.decode (range.read index) = some value)
    (below : value + addend < 2 * code.span) :
    code.Stores range carry index ((value + addend) % code.span)
      (decide (code.span ≤ value + addend))
      ((code.wide range carry).add addend (index.clear (.power carry))) := by
  have bits := BasisIndex.testBit_clear_power index carry
  have holds : (code.wide range carry).read (index.clear (.power carry)) = some value := by
    change (code.decode (range.read (index.clear _))).map (fun value =>
      value + if (index.clear _).testBit carry then code.span else 0) = _
    rw [QubitRange.read_clear_power outside, decodes, bits, Function.update_self, Option.map_some, if_neg Bool.false_ne_true,
      Nat.add_zero]
  have total : (value + addend) % (code.wide range carry).span = value + addend :=
    Nat.mod_eq_of_lt below
  have stores := lawful.stores_write outside (index.clear (.power carry)) below
  rw [Operand.add, holds]
  dsimp only
  rw [total]
  refine ⟨stores.number, stores.carried, fun q outside different => ?_⟩
  rw [stores.others q outside different, bits, Function.update_of_ne different]

def narrow (code : Code) (range : QubitRange) (controls : BasisIndex) : Operand where
  span := code.span
  read index := if index.hasAll controls then code.decode (range.read index) else none
  write index value := range.write index (code.encode value)

theorem Lawful.narrow_writesOnly (lawful : code.Lawful range.length) (controls : BasisIndex) :
    (code.narrow range controls).WritesOnly fun q => range.contains q = true := by
  intro index value q below outside
  exact QubitRange.testBit_write_of_not_mem (lawful.encode_lt below) (Bool.eq_false_iff.mpr outside)

theorem Lawful.narrow (lawful : code.Lawful range.length) (inside : range.stop ≤ width)
    {controls : BasisIndex} (apart : controls &&& range.mask = 0) :
    (code.narrow range controls).Lawful width where
  span_pos := lawful.span_pos
  read_lt {index value} holds := by
    obtain ⟨-, decodes⟩ := Option.ite_none_right_eq_some.mp holds
    exact (lawful.of_decode (range.read_lt index) decodes).1
  read_write {index value value'} holds below := by
    obtain ⟨selected, -⟩ := Option.ite_none_right_eq_some.mp holds
    have kept : (range.write index (code.encode value')).hasAll controls = true := by
      rw [BasisIndex.hasAll_iff] at selected ⊢
      intro q set
      have outside : range.contains q = false := by
        have both := congrArg (Nat.testBit · q) apart
        simpa [Nat.testBit_and, set, QubitRange.testBit_mask] using both
      rw [QubitRange.testBit_write_of_not_mem (lawful.encode_lt below) outside]
      exact selected q set
    have held : code.decode (range.read (range.write index (code.encode value'))) = some value' := by
      rw [QubitRange.read_write (lawful.encode_lt below), lawful.decode_encode below]
    exact Option.ite_none_right_eq_some.mpr ⟨kept, held⟩
  write_read {index value} holds := by
    obtain ⟨-, decodes⟩ := Option.ite_none_right_eq_some.mp holds
    change range.write index (code.encode value) = index
    rw [(lawful.of_decode (range.read_lt index) decodes).2, range.write_read]
  write_write below below' :=
    QubitRange.write_write (lawful.encode_lt below) (lawful.encode_lt below')
  write_lt bound below := QubitRange.write_lt bound inside (lawful.encode_lt below)

theorem addIndex_eq (addend : ℕ) (range : QubitRange) (controls : BasisIndex) :
    addIndex addend range controls = ((binary range.length).narrow range controls).add addend := by
  funext index
  have read : ((binary range.length).narrow range controls).read index =
      if index.hasAll controls then some (range.read index) else none := rfl
  rw [addIndex, Operand.add, read]
  cases index.hasAll controls <;> rfl

theorem addDecimalIndex_eq (addend digits : ℕ) (range : QubitRange) :
    addDecimalIndex addend digits range = ((decimal digits).narrow range 0).add addend := by
  funext index
  have read : ((decimal digits).narrow range 0).read index =
      decodeDecimal digits (range.read index) :=
    if_pos (beq_iff_eq.mpr (Nat.and_zero index))
  rw [addDecimalIndex, Operand.add, read]
  cases decodeDecimal digits (range.read index) <;> rfl

theorem addCarryIndex_eq (addend : ℕ) (range : QubitRange) (carry : ℕ) :
    addCarryIndex addend range carry = ((binary range.length).wide range carry).add addend := by
  funext index
  have below : (readWide range carry index + addend) % (2 * range.span) / range.span < 2 :=
    Nat.div_lt_of_lt_mul ((Nat.mod_lt _ (Nat.mul_pos (by decide) range.span_pos)).trans_eq
      (Nat.mul_comm _ _))
  rw [addCarryIndex, writeWide, Nat.mod_eq_of_lt below]
  rfl

theorem addDecimalCarryIndex_eq (addend digits : ℕ) (range : QubitRange) (carry : ℕ) :
    addDecimalCarryIndex addend digits range carry =
      ((decimal digits).wide range carry).add addend := by
  funext index
  have read : ((decimal digits).wide range carry).read index =
      (decodeDecimal digits (range.read index)).map fun value =>
        value + if index.bit carry then 10 ^ digits else 0 := rfl
  rw [addDecimalCarryIndex, Operand.add, read]
  cases decodeDecimal digits (range.read index) <;> rfl

end Code

end AmplitudeTree.StateVector
