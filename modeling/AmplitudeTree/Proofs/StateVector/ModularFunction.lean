import AmplitudeTree.Proofs.StateVector.FreeRange
import Mathlib.Data.Nat.ModEq

/-!
# Modular functions

A modular function writes a multiple or a power of the number in one range, modulo a number that the
range can hold, to a second range that was zero.  As the first range stays, different numbers go to
different places whatever the function is, and moving back fetches every amplitude from where it was
put.  The amplitudes of occupied second ranges are dropped.
-/

namespace AmplitudeTree.StateVector

variable {v v' : StateVector ℝ} {f : ModularFunction} {input output : QubitRange}
  {controls : List ℕ} {modulus inputStart outputStart length width : ℕ} {index place : BasisIndex}

/-! ## Powers by squaring -/

/-- The loop multiplies the result by the power raised to what is left of the exponent. -/
theorem powModFrom_modEq (modulus exponent power result : ℕ) :
    powModFrom modulus exponent power result ≡ result * power ^ exponent [MOD modulus] := by
  fun_induction powModFrom modulus exponent power result with
  | case1 power result => rw [pow_zero, mul_one]
  | case2 exponent power result some _ ih =>
      have used : (if (exponent % 2 == 1) = true then result * power % modulus else result) ≡
          result * power ^ (exponent % 2) [MOD modulus] := by
        rcases Nat.mod_two_eq_zero_or_one exponent with even | odd
        · rw [even, pow_zero, mul_one]
          exact Nat.ModEq.rfl
        · rw [odd, pow_one]
          exact Nat.mod_modEq _ _
      have left : (power * power % modulus) ^ (exponent / 2) ≡ power ^ (2 * (exponent / 2))
          [MOD modulus] := by
        rw [pow_mul, sq]
        exact (Nat.mod_modEq _ _).pow _
      have whole := ih.trans (used.mul left)
      rwa [mul_assoc, ← pow_add, Nat.mod_add_div] at whole

theorem powModFrom_lt {modulus exponent power result : ℕ} (reduced : result < modulus) :
    powModFrom modulus exponent power result < modulus := by
  fun_induction powModFrom modulus exponent power result with
  | case1 power result => exact reduced
  | case2 exponent power result some _ ih =>
      refine ih ?_
      split
      · exact Nat.mod_lt _ (Nat.zero_lt_of_lt reduced)
      · exact reduced

theorem powMod_eq (positive : modulus ≠ 0) (base exponent : ℕ) :
    powMod base exponent modulus = base ^ exponent % modulus := by
  have reduced : powMod base exponent modulus < modulus :=
    powModFrom_lt (Nat.mod_lt 1 (Nat.pos_of_ne_zero positive))
  have power : powMod base exponent modulus ≡ 1 * base ^ exponent [MOD modulus] :=
    (powModFrom_modEq ..).trans ((Nat.mod_modEq _ _).mul ((Nat.mod_modEq _ _).pow _))
  rw [one_mul] at power
  exact (Nat.mod_eq_of_lt reduced).symm.trans power

def ModularFunction.whole : ModularFunction → ℕ → ℕ
  | multiple factor, argument => argument * factor
  | power base, argument => base ^ argument

theorem ModularFunction.value_eq (f : ModularFunction) (positive : modulus ≠ 0) (argument : ℕ) :
    f.value modulus argument = f.whole argument % modulus := by
  cases f with
  | multiple factor => rfl
  | power base => exact powMod_eq positive base argument

/-! ## Indices -/

/-- The operands of a modular function on a register. -/
structure Computes (modulus : ℕ) (input output : QubitRange) (controls : List ℕ) (width : ℕ) :
    Prop where
  positive : modulus ≠ 0
  fits : modulus ≤ output.span
  nonempty : input.length ≠ 0
  lengths : output.length = input.length
  inside : input.stop ≤ width
  outputInside : output.stop ≤ width
  disjoint : input.Disjoint output
  controlled : ∀ control ∈ controls,
    control < width ∧ input.contains control = false ∧ output.contains control = false

def valueIndex (f : ModularFunction) (modulus : ℕ) (input output : QubitRange) (index : BasisIndex) :
    BasisIndex :=
  output.write index (f.value modulus (input.read index))

/-- In a free range nothing is overwritten. -/
theorem outputIndex_eq (f : ModularFunction) (mask : BasisIndex) :
    outputIndex (f.value modulus) input output mask =
      intoFree (valueIndex f modulus input output) output mask := by
  funext index
  rw [outputIndex, intoFree, valueIndex, QubitRange.write, BasisIndex.clear]
  refine if_congr Iff.rfl rfl ?_
  split
  · rfl
  · next free => rw [not_not.mp (mt bne_iff_ne.mpr free), Nat.xor_zero]

namespace Computes

variable (computes : Computes modulus input output controls width)
include computes

theorem value_lt (f : ModularFunction) (argument : ℕ) : f.value modulus argument < output.span := by
  rw [f.value_eq computes.positive]
  exact (Nat.mod_lt _ (Nat.pos_of_ne_zero computes.positive)).trans_le computes.fits

theorem read_valueIndex (f : ModularFunction) (index : BasisIndex) :
    input.read (valueIndex f modulus input output index) = input.read index ∧
      output.read (valueIndex f modulus input output index) =
        f.whole (input.read index) % modulus := by
  rw [← f.value_eq computes.positive]
  exact ⟨computes.disjoint.symm.read_write (computes.value_lt f _),
    QubitRange.read_write (computes.value_lt f _)⟩

theorem testBit_valueIndex (f : ModularFunction) (index : BasisIndex) {q : ℕ}
    (outside : output.contains q = false) :
    (valueIndex f modulus input output index).testBit q = index.testBit q :=
  QubitRange.testBit_write_of_not_mem (computes.value_lt f _) outside

theorem keepsControls (f : ModularFunction) :
    KeepsControls (valueIndex f modulus input output) controls width where
  image_lt _ bound := QubitRange.write_lt bound computes.outputInside (computes.value_lt f _)
  testBit index control listed :=
    computes.testBit_valueIndex f index (computes.controlled control listed).2.2

/-- An index whose second range is free is what its place is without the value. -/
theorem write_valueIndex (f : ModularFunction) (free : output.read index = 0) :
    output.write (valueIndex f modulus input output index) 0 = index := by
  rw [valueIndex, QubitRange.write_write (computes.value_lt f _) output.span_pos, ← free,
    output.write_read]

theorem separates (f : ModularFunction) :
    Separates (outputIndex (f.value modulus) input output (maskOf controls)) width := by
  rw [outputIndex_eq]
  refine (computes.keepsControls f).separates fun index other free free' same => ?_
  rw [← computes.write_valueIndex f free, same, computes.write_valueIndex f free']

theorem place_lt (f : ModularFunction) (bound : index < 2 ^ width)
    (found : outputIndex (f.value modulus) input output (maskOf controls) index = some place) :
    place < 2 ^ width := by
  rw [outputIndex_eq] at found
  exact (computes.keepsControls f).place_lt bound found

/-- A place with all controls set holds in its second range the value at its first. -/
theorem read_of_placed (f : ModularFunction) (selected : place.hasAll (maskOf controls) = true)
    (found : outputIndex (f.value modulus) input output (maskOf controls) index = some place) :
    output.read place = f.whole (input.read place) % modulus := by
  rw [outputIndex_eq] at found
  rcases intoFree_cases found with ⟨unselected, rfl⟩ | ⟨-, -, rfl⟩
  · rw [unselected] at selected
    cases selected
  · obtain ⟨argument, value⟩ := computes.read_valueIndex f index
    rw [value, argument]

end Computes

/-! ## Calls -/

theorem modularOut_eq_ok (direction : Direction) :
    v.modularOut direction f modulus inputStart outputStart length controls = .ok v' ↔
      Computes modulus ⟨inputStart, length⟩ ⟨outputStart, length⟩ controls v.width ∧
        v.move direction (outputIndex (f.value modulus) ⟨inputStart, length⟩ ⟨outputStart, length⟩
          (maskOf controls)) = v' := by
  rw [modularOut, Update.modularOut, Update.changed_refused_eq_ok, Update.changed_check_bind_eq_ok,
    checkDisjoint_pair, checkRange_eq_ok, checkRange_eq_ok, Update.changed_query_bind_eq_ok]
  simp only [operandControls_eq_ok, Nat.testBit_or, QubitRange.testBit_mask, Bool.or_eq_false_iff,
    Bool.or_eq_true, beq_iff_eq, decide_eq_true_eq, not_or, not_lt, Update.changed_modify]
  constructor
  · rintro ⟨⟨positive, fits⟩, ⟨⟨⟨nonempty, inside⟩, -, outputInside⟩, disjoint⟩, _,
      ⟨controlled, rfl⟩, returned⟩
    exact ⟨⟨positive, fits, nonempty, rfl, inside, outputInside, disjoint, controlled⟩,
      Except.ok.inj returned⟩
  · rintro ⟨⟨positive, fits, nonempty, -, inside, outputInside, disjoint, controlled⟩, rfl⟩
    exact ⟨⟨positive, fits⟩, ⟨⟨⟨nonempty, inside⟩, nonempty, outputInside⟩, disjoint⟩, _,
      ⟨controlled, rfl⟩, rfl⟩

theorem checksFirst_modularOut (direction : Direction) :
    (Update.modularOut (R := ℝ) direction f modulus inputStart outputStart length
      controls).ChecksFirst :=
  .refused_bind (.check_bind _ (.query_bind _ fun _ => .modify _))

/-- Every basis state with all controls and a free second range goes to the one that holds there the
multiple or power of its number; the others keep their amplitudes or, where the range is occupied,
lose them.  Taking the value away restores all other amplitudes. -/
theorem modular_output (size : v.amplitudes.size = 2 ^ v.width) (f : ModularFunction)
    (computes : Computes modulus ⟨inputStart, length⟩ ⟨outputStart, length⟩ controls v.width) :
    let input : QubitRange := ⟨inputStart, length⟩
    let output : QubitRange := ⟨outputStart, length⟩
    ∃ v₁ v₂, v.modularOut .forward f modulus inputStart outputStart length controls = .ok v₁ ∧
      v₁.modularOut .backward f modulus inputStart outputStart length controls = .ok v₂ ∧
      v₁.width = v.width ∧ v₁.amplitudes.size = v.amplitudes.size ∧
      (∀ index < 2 ^ v.width, ¬ (∀ control ∈ controls, index.testBit control = true) →
        v₁.amplitudeD index = v.amplitudeD index) ∧
      (∀ index < 2 ^ v.width, (∀ control ∈ controls, index.testBit control = true) →
        output.read index = 0 → ∃ place < 2 ^ v.width,
          output.read place = f.whole (input.read index) % modulus ∧
          (∀ q, output.contains q = false → place.testBit q = index.testBit q) ∧
          v₁.amplitudeD place = v.amplitudeD index) ∧
      (∀ place < 2 ^ v.width, (∀ control ∈ controls, place.testBit control = true) →
        output.read place ≠ f.whole (input.read place) % modulus → v₁.amplitudeD place = 0) ∧
      ∀ index < 2 ^ v.width, v₂.amplitudeD index =
        if (∀ control ∈ controls, index.testBit control = true) ∧ output.read index ≠ 0 then 0
        else v.amplitudeD index := by
  intro input output
  have separates := computes.separates f
  refine ⟨_, _, (modularOut_eq_ok .forward).mpr ⟨computes, rfl⟩,
    (modularOut_eq_ok .backward).mpr ⟨computes, rfl⟩, width_move .., size_move .., ?_, ?_, ?_, ?_⟩
  · intro index bound unselected
    refine separates.amplitudeD_forward size bound bound ?_
    rw [outputIndex_eq, intoFree_unselected (Bool.eq_false_iff.mpr (mt hasAll_maskOf.mp unselected))]
  · intro index bound selected free
    have found : outputIndex (f.value modulus) input output (maskOf controls) index =
        some (valueIndex f modulus input output index) := by
      rw [outputIndex_eq, intoFree_free (hasAll_maskOf.mpr selected) free]
    have below := computes.place_lt f bound found
    exact ⟨_, below, (computes.read_valueIndex f index).2,
      fun q outside => computes.testBit_valueIndex f index outside,
      separates.amplitudeD_forward size bound below found⟩
  · intro place bound selected differs
    refine amplitudeD_forward_of_none (bound.trans_eq size.symm) fun other _ found => differs ?_
    exact computes.read_of_placed f (hasAll_maskOf.mpr selected) found
  · intro index bound
    rw [separates.amplitudeD_back size bound fun _ inside _ => computes.place_lt f inside]
    split
    · next dropped =>
        rw [outputIndex_eq, intoFree_occupied (hasAll_maskOf.mpr dropped.1) dropped.2]
        rfl
    · next kept =>
        cases found : outputIndex (f.value modulus) input output (maskOf controls) index with
        | none =>
            rw [outputIndex_eq, intoFree_eq_none_iff, hasAll_maskOf] at found
            exact absurd found kept
        | some place => rfl

/-- Two to the third, modulo three, is written to a free range under a control
and taken away again. -/
theorem modular_output_power :
    let v : StateVector ℝ :=
      ⟨5, Array.ofFn fun index : Fin 32 => ⟨(index : ℕ), 0⟩, .ofSeed 0, .all⟩
    v.amplitudes.size = 2 ^ v.width ∧ Computes 3 ⟨0, 2⟩ ⟨2, 2⟩ [4] v.width ∧
      ∃ v₁ v₂, v.modularOut .forward (.power 2) 3 0 2 2 [4] = .ok v₁ ∧
        v₁.modularOut .backward (.power 2) 3 0 2 2 [4] = .ok v₂ ∧
        v₁.amplitudeD 27 = ⟨19, 0⟩ ∧ v₁.amplitudeD 19 = 0 ∧ v₁.amplitudeD 3 = ⟨3, 0⟩ ∧
        v₂.amplitudeD 19 = ⟨19, 0⟩ ∧ v₂.amplitudeD 23 = 0 := by
  intro v
  have size : v.amplitudes.size = 2 ^ v.width := Array.size_ofFn
  have computes : Computes 3 ⟨0, 2⟩ ⟨2, 2⟩ [4] v.width :=
    ⟨by decide, by decide, by decide, rfl, by decide, by decide,
      QubitRange.disjoint_iff.mpr (by decide), by decide⟩
  obtain ⟨v₁, v₂, forward, backward, -, -, stays, placed, empty, restored⟩ :=
    modular_output size (.power 2) computes
  obtain ⟨place, below, value, others, moved⟩ := placed 19 (by decide) (by decide) (by decide)
  have only : ∀ place < 2 ^ 5, QubitRange.read ⟨2, 2⟩ place = 2 → place.testBit 0 = true →
      place.testBit 1 = true → place.testBit 4 = true → place = 27 := by decide
  obtain rfl : place = 27 :=
    only place below value (others 0 rfl) (others 1 rfl) (others 4 rfl)
  refine ⟨size, computes, v₁, v₂, forward, backward, ?_, ?_, ?_, ?_, ?_⟩
  · rw [moved]
    simp [v, amplitudeD]
  · exact empty 19 (by decide) (by decide) (by decide)
  · rw [stays 3 (by decide) (by decide)]
    simp [v, amplitudeD]
  · rw [restored 19 (by decide), if_neg (by decide)]
    simp [v, amplitudeD]
  · rw [restored 23 (by decide), if_pos (by decide)]

end AmplitudeTree.StateVector
