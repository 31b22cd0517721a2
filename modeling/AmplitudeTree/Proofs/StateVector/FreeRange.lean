import AmplitudeTree.Proofs.StateVector.Move
import AmplitudeTree.Proofs.StateVector.Reversible

/-!
# Operators into a free range

A multiplication and a modular function write to a range that has to hold zero.  An index with all
controls set goes to its image if the range is free, and has no place if it is occupied.  Without all
controls it stays, and as images keep the controls no other index comes to it.
-/

namespace AmplitudeTree.StateVector

variable {v : StateVector ℝ} {image : BasisIndex → BasisIndex} {range : QubitRange}
  {controls : List ℕ} {mask index other place : BasisIndex} {width : ℕ}

/-- An index goes to its image where the range is free and nowhere else; without
all controls it stays. -/
def intoFree (image : BasisIndex → BasisIndex) (range : QubitRange) (mask index : BasisIndex) :
    Option BasisIndex :=
  if !index.hasAll mask then some index
  else if index &&& range.mask != 0 then none
  else some (image index)

theorem intoFree_unselected (unselected : index.hasAll mask = false) :
    intoFree image range mask index = some index := by
  rw [intoFree, unselected]
  rfl

theorem intoFree_occupied (selected : index.hasAll mask = true) (occupied : range.read index ≠ 0) :
    intoFree image range mask index = none := by
  rw [intoFree, selected, if_neg (by decide),
    if_pos (bne_iff_ne.mpr fun none => occupied (QubitRange.and_mask_eq_zero_iff.mp none))]

theorem intoFree_free (selected : index.hasAll mask = true) (free : range.read index = 0) :
    intoFree image range mask index = some (image index) := by
  have none : (index &&& range.mask != 0) = false := by
    rw [QubitRange.and_mask_eq_zero_iff.mpr free]
    rfl
  rw [intoFree, selected, none]
  rfl

theorem intoFree_cases (found : intoFree image range mask index = some place) :
    index.hasAll mask = false ∧ place = index ∨
      index.hasAll mask = true ∧ range.read index = 0 ∧ place = image index := by
  cases selected : index.hasAll mask with
  | false =>
      rw [intoFree_unselected selected] at found
      exact .inl ⟨rfl, (Option.some.inj found).symm⟩
  | true =>
      by_cases free : range.read index = 0
      · rw [intoFree_free selected free] at found
        exact .inr ⟨rfl, free, (Option.some.inj found).symm⟩
      · rw [intoFree_occupied selected free] at found
        cases found

theorem intoFree_eq_none_iff : intoFree image range mask index = none ↔
    index.hasAll mask = true ∧ range.read index ≠ 0 := by
  constructor
  · intro unplaced
    cases selected : index.hasAll mask with
    | false => cases (intoFree_unselected selected).symm.trans unplaced
    | true => exact ⟨rfl, fun free => nomatch (intoFree_free selected free).symm.trans unplaced⟩
  · rintro ⟨selected, occupied⟩
    exact intoFree_occupied selected occupied

/-- Images of the indices of a register are indices of the register, with the same controls set. -/
structure KeepsControls (image : BasisIndex → BasisIndex) (controls : List ℕ) (width : ℕ) : Prop where
  image_lt : ∀ index < 2 ^ width, image index < 2 ^ width
  testBit : ∀ index : BasisIndex, ∀ control ∈ controls,
    (image index).testBit control = index.testBit control

namespace KeepsControls

variable (keeps : KeepsControls image controls width)
include keeps

theorem hasAll_image (index : BasisIndex) :
    (image index).hasAll (maskOf controls) = index.hasAll (maskOf controls) := by
  rw [Bool.eq_iff_iff, hasAll_maskOf, hasAll_maskOf]
  refine forall₂_congr fun control listed => ?_
  rw [keeps.testBit index control listed]

theorem place_lt (bound : index < 2 ^ width)
    (found : intoFree image range (maskOf controls) index = some place) : place < 2 ^ width := by
  rcases intoFree_cases found with ⟨-, rfl⟩ | ⟨-, -, rfl⟩
  · exact bound
  · exact keeps.image_lt index bound

/-- Where the controls are not all set, only an index itself goes to its place. -/
theorem eq_of_unselected (unselected : index.hasAll (maskOf controls) = false)
    (found : intoFree image range (maskOf controls) other = some index) : other = index := by
  rcases intoFree_cases found with ⟨-, rfl⟩ | ⟨selected, -, rfl⟩
  · rfl
  · rw [keeps.hasAll_image, selected] at unselected
    cases unselected

/-- If free indices differ in their images, no two indices share a place. -/
theorem separates (injective : ∀ index other : BasisIndex, range.read index = 0 →
    range.read other = 0 → image index = image other → index = other) :
    Separates (intoFree image range (maskOf controls)) width := by
  intro index _ other _ place found found'
  rcases intoFree_cases found with ⟨unselected, rfl⟩ | ⟨selected, free, rfl⟩
  · exact (keeps.eq_of_unselected unselected found').symm
  · rcases intoFree_cases found' with ⟨unselected', same⟩ | ⟨selected', free', same⟩
    · rw [same] at found
      exact keeps.eq_of_unselected unselected' found
    · exact injective index other free free' same

end KeepsControls

structure HoldsZero (v : StateVector ℝ) (range : QubitRange) (controls : List ℕ) (width : ℕ) :
    Prop where
  width_eq : v.width = width
  size : v.amplitudes.size = 2 ^ width
  zero : ∀ index < 2 ^ width, index.hasAll (maskOf controls) = true → range.read index ≠ 0 →
    v.amplitudeD index = 0

theorem liesOver_intoFree_iff : v.LiesOver (intoFree image range (maskOf controls)) width ↔
    v.HoldsZero range controls width := by
  constructor
  · rintro ⟨widths, size, clear⟩
    exact ⟨widths, size, fun index bound selected occupied =>
      clear index bound (intoFree_occupied selected occupied)⟩
  · rintro ⟨widths, size, zero⟩
    refine ⟨widths, size, fun index bound unplaced => ?_⟩
    obtain ⟨selected, occupied⟩ := intoFree_eq_none_iff.mp unplaced
    exact zero index bound selected occupied

end AmplitudeTree.StateVector
