import AmplitudeTree.Proofs.StateVector.FreeRange
import Mathlib.Data.Nat.ModEq
import Mathlib.Data.Nat.Prime.Basic

/-!
# Multiplication

A product of two numbers is kept modulo the square of the range's span: its low half in the range,
its high half in a second range that was zero.  With a factor that has at most as many twos as the
range has qubits, different numbers have different products, so that the division restores the
state.  With one two more, the numbers zero and half the span have the product zero both.
-/

namespace AmplitudeTree.StateVector

variable {v : StateVector ℝ} {range high : QubitRange} {factor start highStart length width : ℕ}
  {controls : List ℕ} {mask index other place : BasisIndex}

/-! ## Products -/

/-- Without too many twos in the factor, numbers below the span are determined by their products. -/
theorem eq_of_product_modEq {value value' : ℕ} (few : ¬ 2 ^ (length + 1) ∣ factor)
    (below : value < 2 ^ length) (below' : value' < 2 ^ length)
    (same : value * factor ≡ value' * factor [MOD 2 ^ (2 * length)]) : value = value' := by
  obtain ⟨twos, le, common⟩ := (Nat.dvd_prime_pow Nat.prime_two).mp
    (Nat.gcd_dvd_left (2 ^ (2 * length)) factor)
  have bounded : twos ≤ length := by
    by_contra many
    refine few ((Nat.pow_dvd_pow 2 (by omega : length + 1 ≤ twos)).trans ?_)
    rw [← common]
    exact Nat.gcd_dvd_right _ _
  have cancelled := same.cancel_right_div_gcd (Nat.two_pow_pos _)
  rw [common, Nat.pow_div le two_pos] at cancelled
  exact (cancelled.of_dvd (Nat.pow_dvd_pow 2 (by omega))).eq_of_lt_of_lt below below'

/-- With too many twos in the factor, half the span has the product zero. -/
theorem half_span_product (nonempty : length ≠ 0) (many : 2 ^ (length + 1) ∣ factor) :
    2 ^ (length - 1) * factor % 2 ^ (2 * length) = 0 := by
  obtain ⟨rest, rfl⟩ := many
  rw [← mul_assoc, ← pow_add, show length - 1 + (length + 1) = 2 * length by omega]
  exact Nat.mul_mod_right _ _

/-- The two halves of a product modulo the square of the span. -/
theorem product_halves (product length : ℕ) :
    product % 2 ^ (2 * length) % 2 ^ length = product % 2 ^ length ∧
      product % 2 ^ (2 * length) / 2 ^ length = product / 2 ^ length % 2 ^ length := by
  rw [two_mul, pow_add]
  exact ⟨Nat.mod_mul_right_mod .., Nat.mod_mul_right_div_self ..⟩

theorem span_eq_of_length (lengths : high.length = range.length) : high.span = range.span :=
  congrArg (2 ^ ·) lengths

def productIndex (factor : ℕ) (range high : QubitRange) (index : BasisIndex) : BasisIndex :=
  high.write (range.write index (range.read index * factor % range.span))
    (range.read index * factor / range.span % high.span)

section Product

variable (disjoint : range.Disjoint high) (factor : ℕ) (index : BasisIndex)

include disjoint in
theorem read_productIndex :
    range.read (productIndex factor range high index) = range.read index * factor % range.span ∧
      high.read (productIndex factor range high index) =
        range.read index * factor / range.span % high.span :=
  ⟨(disjoint.symm.read_write (Nat.mod_lt _ high.span_pos)).trans
    (QubitRange.read_write (Nat.mod_lt _ range.span_pos)),
    QubitRange.read_write (Nat.mod_lt _ high.span_pos)⟩

theorem testBit_productIndex {q : ℕ} (outside : range.contains q = false)
    (outsideHigh : high.contains q = false) :
    (productIndex factor range high index).testBit q = index.testBit q :=
  (QubitRange.testBit_write_of_not_mem (Nat.mod_lt _ high.span_pos) outsideHigh).trans
    (QubitRange.testBit_write_of_not_mem (Nat.mod_lt _ range.span_pos) outside)

theorem productIndex_lt {index : BasisIndex} (bound : index < 2 ^ width)
    (inside : range.stop ≤ width) (highInside : high.stop ≤ width) :
    productIndex factor range high index < 2 ^ width :=
  QubitRange.write_lt (QubitRange.write_lt bound inside (Nat.mod_lt _ range.span_pos)) highInside
    (Nat.mod_lt _ high.span_pos)

include disjoint in
/-- What was overwritten, written back. -/
theorem write_productIndex :
    range.write (high.write (productIndex factor range high index) (high.read index))
      (range.read index) = index := by
  have low := Nat.mod_lt (range.read index * factor) range.span_pos
  rw [productIndex, QubitRange.write_write (Nat.mod_lt _ high.span_pos) (high.read_lt index),
    ← disjoint.write_comm (range.read_lt index) (high.read_lt index),
    QubitRange.write_write low (range.read_lt index), range.write_read, high.write_read]

theorem productIndex_of_zero (lengths : high.length = range.length)
    (zero : range.read index * factor % 2 ^ (2 * range.length) = 0) :
    productIndex factor range high index = high.write (range.write index 0) 0 := by
  obtain ⟨low, up⟩ := product_halves (range.read index * factor) range.length
  rw [zero, Nat.zero_mod] at low
  rw [zero, Nat.zero_div] at up
  rw [productIndex, span_eq_of_length lengths, QubitRange.span, ← low, ← up]

end Product

/-! ## Indices -/

structure Multiplies (factor : ℕ) (range high : QubitRange) (controls : List ℕ) (width : ℕ) :
    Prop where
  nonempty : range.length ≠ 0
  lengths : high.length = range.length
  inside : range.stop ≤ width
  highInside : high.stop ≤ width
  disjoint : range.Disjoint high
  factor_ne_zero : factor ≠ 0
  controlled : ∀ control ∈ controls,
    control < width ∧ range.contains control = false ∧ high.contains control = false

/-- A multiplication goes into its second range, if that is as long as the first. -/
theorem multiplyIndex_eq (lengths : high.length = range.length) (factor : ℕ) (mask : BasisIndex) :
    multiplyIndex factor range high mask = intoFree (productIndex factor range high) high mask := by
  funext index
  rw [multiplyIndex, intoFree, productIndex, span_eq_of_length lengths]

theorem multiplyIndex_unselected (unselected : index.hasAll mask = false) :
    multiplyIndex factor range high mask index = some index := by
  rw [multiplyIndex, unselected]
  rfl

namespace Multiplies

variable (multiplies : Multiplies factor range high controls width)
include multiplies

theorem keepsControls : KeepsControls (productIndex factor range high) controls width where
  image_lt _ bound := productIndex_lt factor bound multiplies.inside multiplies.highInside
  testBit index control listed :=
    have ⟨_, outside, outsideHigh⟩ := multiplies.controlled control listed
    testBit_productIndex factor index outside outsideHigh

theorem free_placed (selected : index.hasAll (maskOf controls) = true)
    (free : high.read index = 0) :
    multiplyIndex factor range high (maskOf controls) index =
      some (productIndex factor range high index) := by
  rw [multiplyIndex_eq multiplies.lengths, intoFree_free selected free]

theorem place_lt (bound : index < 2 ^ width)
    (found : multiplyIndex factor range high (maskOf controls) index = some place) :
    place < 2 ^ width := by
  rw [multiplyIndex_eq multiplies.lengths] at found
  exact multiplies.keepsControls.place_lt bound found

theorem eq_of_unselected (unselected : index.hasAll (maskOf controls) = false)
    (found : multiplyIndex factor range high (maskOf controls) other = some index) :
    other = index := by
  rw [multiplyIndex_eq multiplies.lengths] at found
  exact multiplies.keepsControls.eq_of_unselected unselected found

/-- Without too many twos in the factor no products collide. -/
theorem product_injective (few : ¬ 2 ^ (range.length + 1) ∣ factor) (free : high.read index = 0)
    (free' : high.read other = 0)
    (same : productIndex factor range high index = productIndex factor range high other) :
    index = other := by
  obtain ⟨low, up⟩ := read_productIndex multiplies.disjoint factor index
  obtain ⟨low', up'⟩ := read_productIndex multiplies.disjoint factor other
  rw [same, low'] at low
  rw [same, up'] at up
  have values : range.read index = range.read other := by
    refine eq_of_product_modEq few (range.read_lt index) (range.read_lt other) ?_
    rw [span_eq_of_length multiplies.lengths] at up
    rw [Nat.ModEq, two_mul, pow_add, Nat.mod_mul, Nat.mod_mul]
    exact (congrArg₂ (· + range.span * ·) low up).symm
  rw [← write_productIndex multiplies.disjoint factor index, same, free, values, ← free',
    write_productIndex multiplies.disjoint factor other]

theorem maskOf_free : maskOf controls < 2 ^ width ∧ (maskOf controls).hasAll (maskOf controls) = true ∧
    range.read (maskOf controls) = 0 ∧ high.read (maskOf controls) = 0 := by
  have apart := maskOf_and_mask fun control listed => (multiplies.controlled control listed).2.1
  have apartHigh := maskOf_and_mask fun control listed => (multiplies.controlled control listed).2.2
  refine ⟨Nat.lt_pow_two_of_testBit _ fun q outside => ?_, BasisIndex.hasAll_iff.mpr fun q set => set,
    QubitRange.and_mask_eq_zero_iff.mp apart, QubitRange.and_mask_eq_zero_iff.mp apartHigh⟩
  rw [testBit_maskOf, decide_eq_false_iff_not]
  exact fun listed => absurd (multiplies.controlled q listed).1 (not_lt.mpr outside)

/-- With too many twos in the factor, zero and half the span have one place. -/
theorem products_collide (many : 2 ^ (range.length + 1) ∣ factor) :
    ∃ index < 2 ^ width, index ≠ maskOf controls ∧ index.hasAll (maskOf controls) = true ∧
      high.read index = 0 ∧
      productIndex factor range high index = productIndex factor range high (maskOf controls) := by
  obtain ⟨bound, selected, empty, free⟩ := multiplies.maskOf_free
  have half : 2 ^ (range.length - 1) < range.span :=
    Nat.pow_lt_pow_right (by decide) (Nat.pred_lt multiplies.nonempty)
  have held : range.read (range.write (maskOf controls) (2 ^ (range.length - 1))) = _ :=
    QubitRange.read_write half
  refine ⟨range.write (maskOf controls) (2 ^ (range.length - 1)),
    QubitRange.write_lt bound multiplies.inside half, fun same => ?_, ?_, ?_, ?_⟩
  · rw [same, empty] at held
    exact (Nat.two_pow_pos _).ne held
  · refine hasAll_maskOf.mpr fun control listed => ?_
    rw [QubitRange.testBit_write_of_not_mem half (multiplies.controlled control listed).2.1]
    exact hasAll_maskOf.mp selected control listed
  · rw [multiplies.disjoint.read_write half, free]
  · have product := half_span_product multiplies.nonempty many
    rw [← held] at product
    rw [productIndex_of_zero factor _ multiplies.lengths product,
      productIndex_of_zero factor _ multiplies.lengths (by rw [empty, Nat.zero_mul, Nat.zero_mod]),
      QubitRange.write_write half range.span_pos]

/-- No two indices share a place just in case the factor has no more twos than
the range has qubits. -/
theorem separates_iff :
    Separates (multiplyIndex factor range high (maskOf controls)) width ↔
      ¬ 2 ^ (range.length + 1) ∣ factor := by
  constructor
  · intro separates many
    obtain ⟨index, bound, different, selected, free, same⟩ := multiplies.products_collide many
    obtain ⟨bound', selected', -, free'⟩ := multiplies.maskOf_free
    refine different (separates index bound _ bound' _ (multiplies.free_placed selected free) ?_)
    rw [same]
    exact multiplies.free_placed selected' free'
  · intro few
    rw [multiplyIndex_eq multiplies.lengths]
    exact multiplies.keepsControls.separates fun index other => multiplies.product_injective few

end Multiplies

/-! ## Calls -/

/-- A multiplication is accepted if the ranges and controls are apart and the factor is not zero. -/
theorem multiply_eq_ok {v' : StateVector ℝ} (direction : Direction) :
    v.multiply direction factor start highStart length controls = .ok v' ↔
      Multiplies factor ⟨start, length⟩ ⟨highStart, length⟩ controls v.width ∧
        v.move direction (multiplyIndex factor ⟨start, length⟩ ⟨highStart, length⟩
          (maskOf controls)) = v' := by
  rw [multiply, Update.multiply, Update.changed_check_bind_eq_ok, checkDisjoint_pair,
    checkRange_eq_ok, checkRange_eq_ok, Update.changed_refused_eq_ok,
    Update.changed_query_bind_eq_ok]
  simp only [operandControls_eq_ok, Nat.testBit_or, QubitRange.testBit_mask, Bool.or_eq_false_iff,
    beq_iff_eq, Update.changed_modify]
  constructor
  · rintro ⟨⟨⟨⟨nonempty, inside⟩, -, highInside⟩, disjoint⟩, nonzero, _, ⟨controlled, rfl⟩, returned⟩
    exact ⟨⟨nonempty, rfl, inside, highInside, disjoint, nonzero, controlled⟩,
      Except.ok.inj returned⟩
  · rintro ⟨⟨nonempty, -, inside, highInside, disjoint, nonzero, controlled⟩, rfl⟩
    exact ⟨⟨⟨⟨nonempty, inside⟩, nonempty, highInside⟩, disjoint⟩, nonzero, _, ⟨controlled, rfl⟩, rfl⟩

/-- A multiplication that is refused leaves the vector as it was. -/
theorem checksFirst_multiply (direction : Direction) :
    (Update.multiply (R := ℝ) direction factor start highStart length controls).ChecksFirst :=
  .check_bind _ (.refused_bind (.query_bind _ fun _ => .modify _))

theorem Multiplies.liesOver_iff (multiplies : Multiplies factor range high controls width) :
    v.LiesOver (multiplyIndex factor range high (maskOf controls)) width ↔
      v.HoldsZero high controls width := by
  rw [multiplyIndex_eq multiplies.lengths, liesOver_intoFree_iff]

/-- One index holds the product of another one in its two ranges; no other qubits differ. -/
structure HoldsProduct (factor : ℕ) (range high : QubitRange) (index place : BasisIndex) :
    Prop where
  low : range.read place = range.read index * factor % 2 ^ (2 * range.length) % 2 ^ range.length
  up : high.read place = range.read index * factor % 2 ^ (2 * range.length) / 2 ^ range.length
  others : ∀ q, range.contains q = false → high.contains q = false →
    place.testBit q = index.testBit q

theorem Multiplies.holdsProduct (multiplies : Multiplies factor range high controls width)
    (index : BasisIndex) :
    HoldsProduct factor range high index (productIndex factor range high index) := by
  obtain ⟨low, up⟩ := read_productIndex multiplies.disjoint factor index
  obtain ⟨lowHalf, highHalf⟩ := product_halves (range.read index * factor) range.length
  refine ⟨low.trans lowHalf.symm, ?_, fun q => testBit_productIndex factor index⟩
  rw [up, span_eq_of_length multiplies.lengths]
  exact highHalf.symm

/-- A multiplication adds up the amplitudes of products that meet, and the division gives the sum to
each of the factors.  So it restores all vectors just in case the factor has at most as many twos as
the range has qubits. -/
theorem multiply_divide {v₁ : StateVector ℝ} (holds : v.HoldsZero ⟨highStart, length⟩ controls width)
    (ran : v.multiply .forward factor start highStart length controls = .ok v₁) :
    (∃ v₂, v₁.multiply .backward factor start highStart length controls = .ok v₂ ∧
      (∀ index < 2 ^ width, index.hasAll (maskOf controls) = true →
        QubitRange.read ⟨highStart, length⟩ index = 0 →
        ∃ place < 2 ^ width, HoldsProduct factor ⟨start, length⟩ ⟨highStart, length⟩ index place ∧
          v₂.amplitudeD index = v₁.amplitudeD place ∧
          (v₁.amplitudeD place).toComplex =
            ∑ other ∈ Finset.range (2 ^ width) with multiplyIndex factor ⟨start, length⟩
              ⟨highStart, length⟩ (maskOf controls) other = some place,
              (v.amplitudeD other).toComplex) ∧
      ∀ index < 2 ^ width, index.hasAll (maskOf controls) = false →
        v₁.amplitudeD index = v.amplitudeD index ∧ v₂.amplitudeD index = v.amplitudeD index) ∧
    ((∀ w w₁ w₂ : StateVector ℝ, w.HoldsZero ⟨highStart, length⟩ controls width →
      w.multiply .forward factor start highStart length controls = .ok w₁ →
      w₁.multiply .backward factor start highStart length controls = .ok w₂ → w₂ = w) ↔
      ¬ 2 ^ (length + 1) ∣ factor) := by
  obtain ⟨multiplies, rfl⟩ := (multiply_eq_ok .forward).mp ran
  obtain rfl := holds.width_eq
  have size := holds.size
  refine ⟨⟨_, (multiply_eq_ok .backward).mpr ⟨multiplies, rfl⟩, ?_, ?_⟩, ?_⟩
  · intro index bound selected free
    have found := multiplies.free_placed selected free
    have below := multiplies.place_lt bound found
    refine ⟨_, below, multiplies.holdsProduct index, ?_, ?_⟩
    · rw [amplitudeD_backward _ _ (by rwa [size_move, size]), found]
      rfl
    · rw [toComplex_amplitudeD_forward v _ (below.trans_eq size.symm), size]
  · intro index bound unselected
    have stored : index < v.amplitudes.size := bound.trans_eq size.symm
    have found : multiplyIndex factor ⟨start, length⟩ ⟨highStart, length⟩ (maskOf controls) index =
      some index := multiplyIndex_unselected unselected
    have kept := amplitudeD_forward_of_alone stored stored found fun other _ same =>
      multiplies.eq_of_unselected unselected same
    refine ⟨kept, ?_⟩
    rw [amplitudeD_backward _ _ (by rwa [size_move]), found]
    exact kept
  · rw [← multiplies.separates_iff, ← restores_iff fun _ bound _ => multiplies.place_lt bound]
    constructor
    · intro restores w lies
      have widths := lies.width_eq
      refine restores w _ _ (multiplies.liesOver_iff.mp lies) ((multiply_eq_ok .forward).mpr ⟨?_, rfl⟩)
        ((multiply_eq_ok .backward).mpr ⟨?_, rfl⟩)
      · rwa [widths]
      · rwa [width_move, widths]
    · intro restores w w₁ w₂ zero forward backward
      obtain ⟨-, rfl⟩ := (multiply_eq_ok .forward).mp forward
      obtain ⟨-, rfl⟩ := (multiply_eq_ok .backward).mp backward
      exact restores w (multiplies.liesOver_iff.mpr zero)

/-- One, in a single qubit, multiplied and divided by four: the amplitude comes
back at zero as well. -/
theorem multiply_divide_by_four :
    (unitVector 2 1).HoldsZero ⟨1, 1⟩ [] 2 ∧
      ∃ v₁ v₂, (unitVector 2 1).multiply .forward 4 0 1 1 [] = .ok v₁ ∧
        v₁.multiply .backward 4 0 1 1 [] = .ok v₂ ∧
        (unitVector 2 1).amplitudeD 0 = 0 ∧ v₂.amplitudeD 0 = 1 ∧ v₂.amplitudeD 1 = 1 := by
  have entry (index : ℕ) (bound : index < 2 ^ 2) :
      (unitVector 2 1).amplitudeD index = if index = 1 then 1 else 0 := amplitudeD_unitVector bound
  have holds : (unitVector 2 1).HoldsZero ⟨1, 1⟩ [] 2 := by
    refine ⟨rfl, Array.size_ofFn, fun index bound _ occupied => ?_⟩
    rw [entry index bound, if_neg]
    rintro rfl
    exact occupied (by decide)
  have multiplies : Multiplies 4 ⟨0, 1⟩ ⟨1, 1⟩ [] 2 :=
    ⟨by decide, rfl, by decide, by decide, QubitRange.disjoint_iff.mpr (by decide), by decide, nofun⟩
  have ran : (unitVector 2 1).multiply .forward 4 0 1 1 [] =
      .ok ((unitVector 2 1).move .forward (multiplyIndex 4 ⟨0, 1⟩ ⟨1, 1⟩ (maskOf []))) :=
    (multiply_eq_ok .forward).mpr ⟨multiplies, rfl⟩
  obtain ⟨⟨v₂, back, places, -⟩, -⟩ := multiply_divide holds ran
  -- both numbers have the product zero
  have zero : ∀ place < 2 ^ 2, QubitRange.read ⟨0, 1⟩ place = 0 → QubitRange.read ⟨1, 1⟩ place = 0 →
      place = 0 := by decide
  have meeting : (Finset.range (2 ^ 2)).filter
      (fun other => multiplyIndex 4 ⟨0, 1⟩ ⟨1, 1⟩ (maskOf []) other = some 0) = {0, 1} := by decide
  have fetched (index : BasisIndex) (bound : index < 2) : v₂.amplitudeD index = 1 := by
    have given : index < 2 ^ 2 ∧ index.hasAll (maskOf []) = true ∧
        QubitRange.read ⟨1, 1⟩ index = 0 ∧ QubitRange.read ⟨0, 1⟩ index * 4 % 2 ^ (2 * 1) = 0 := by
      revert index
      decide
    obtain ⟨below, selected, free, none⟩ := given
    obtain ⟨place, inside, product, fetch, summed⟩ := places index below selected free
    obtain rfl : place = 0 := by
      refine zero place inside (product.low.trans ?_) (product.up.trans ?_)
      · rw [none, Nat.zero_mod]
      · rw [none, Nat.zero_div]
    rw [fetch, ← Amplitude.toComplex_inj, summed, meeting, Finset.sum_pair (by decide),
      entry 0 (by decide), entry 1 (by decide)]
    simp
  exact ⟨holds, _, v₂, ran, back, entry 0 (by decide), fetched 0 (by decide), fetched 1 (by decide)⟩

end AmplitudeTree.StateVector
