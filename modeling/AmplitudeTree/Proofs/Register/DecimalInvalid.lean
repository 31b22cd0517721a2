import AmplitudeTree.Proofs.Register.DecimalCarry
import AmplitudeTree.Proofs.Register.Reversible
import AmplitudeTree.Proofs.StateVector.DecimalAddition

/-!
# Decimal operators on basis states without a number

A decimal operator leaves a basis state alone whose range holds a digit above nine.  But the operators
that continue from a carry measure and clear the carry qubit before they come to the range, and they
do not put it back: a carry that was set is lost.
-/

namespace AmplitudeTree.Register

open AmplitudeTree.Action
open StateVector (ReversibleCall HoldsInvalid holdsInvalid_iff)

variable {reg left : Register ℝ} {range : QubitRange} {digits carry : ℕ} {index : BasisIndex}

/-- The register stands for one basis state, with some amplitude. -/
structure InBasisState (reg : Register ℝ) (index : BasisIndex) : Prop where
  below : index < 2 ^ reg.width
  only : ∀ other < 2 ^ reg.width, reg.represented other ≠ 0 ↔ other = index

theorem InBasisState.unique {other : BasisIndex} (stands : reg.InBasisState index)
    (stands' : reg.InBasisState other) : index = other :=
  (stands'.only index stands.below).mp ((stands.only index stands.below).mpr rfl)

inductive DecimalCall where
  | add (addend : ℕ)
  | subtract (subtrahend : ℕ)
  | addCarry (addend carry : ℕ)
  | addWithCarry (addend carry : ℕ)
  | subtractWithBorrow (subtrahend carry : ℕ)

namespace DecimalCall

noncomputable def run (range : QubitRange) : DecimalCall → Action ℝ Unit
  | add addend => addDecimal addend range
  | subtract subtrahend => subtractDecimal subtrahend range
  | addCarry addend carry => addDecimalCarry addend range carry
  | addWithCarry addend carry => addDecimalWithCarry addend range carry
  | subtractWithBorrow subtrahend carry => subtractDecimalWithBorrow subtrahend range carry

def measured : DecimalCall → Option ℕ
  | addWithCarry _ carry | subtractWithBorrow _ carry => some carry
  | _ => none

def leaves (call : DecimalCall) (index : BasisIndex) : BasisIndex :=
  match call.measured with
  | some carry => index.clear (.power carry)
  | none => index

end DecimalCall

/-- A reversible operator that stays where it is on the one basis state that a register stands for. -/
theorem Performs.represented_of_stays {call : ReversibleCall} (performs : Performs reg call left)
    (stands : reg.InBasisState index) (stays : call.place index = index)
    (plain : ∀ other, call.negates other = false) (other : BasisIndex)
    (below : other < 2 ^ reg.width) : left.represented other = reg.represented other := by
  obtain ⟨source, inside, rfl⟩ := performs.bijOn.surjOn below
  have moved := performs.represented source inside
  rw [plain, if_neg Bool.false_ne_true] at moved
  by_cases here : source = index
  · rw [moved, here, stays]
  · have elsewhere : call.place source ≠ index := by
      intro same
      exact here (performs.bijOn.injOn inside stands.below (same.trans stays.symm))
    rw [moved, not_not.mp (mt (stands.only source inside).mp here),
      not_not.mp (mt (stands.only _ below).mp elsewhere)]

theorem Sound.performs_onRange (sound : reg.Sound) (nonempty : range.length ≠ 0)
    (calls : ℕ → ReversibleCall) {operand width : ℕ}
    (run : (onRange range do
      let operand ← query fun _ => operandWord operand width
      withArithmetic fun v => (calls operand).run v).runOn reg = (.ok (), left)) :
    Performs reg (calls operand) left := by
  rw [onRange, runOn_check_bind_eq_ok, if_pos (bne_iff_ne.mpr nonempty), runOn_bind_eq_ok] at run
  obtain ⟨-, word, middle, found, continued⟩ := run
  obtain ⟨answered, rfl⟩ := Prod.mk.inj found
  obtain ⟨-, rfl⟩ := operandWord_eq_ok.mp answered
  exact sound.performs continued

/-- Without a carry, a basis state whose range holds no number stays. -/
theorem Sound.decimal_stays (sound : reg.Sound) (length : range.length = 4 * digits)
    (stands : reg.InBasisState index) (invalid : HoldsInvalid range digits index)
    {call : DecimalCall} (unmeasured : call.measured = none)
    (run : (call.run range).runOn reg = (.ok (), left)) :
    left.width = reg.width ∧
      ∀ other < 2 ^ reg.width, left.represented other = reg.represented other := by
  have nonempty := invalid.length_ne_zero length
  have count : range.length / 4 = digits := by omega
  have added {addend : ℕ} (run : (addDecimal addend range).runOn reg = (.ok (), left)) :
      left.width = reg.width ∧
        ∀ other < 2 ^ reg.width, left.represented other = reg.represented other := by
    have performs := sound.performs_onRange nonempty (.addDecimal · range) run
    refine ⟨performs.width, performs.represented_of_stays stands ?_ fun _ => rfl⟩
    rw [ReversibleCall.place, count]
    exact StateVector.addDecimalIndex_of_holdsInvalid length _ invalid
  cases call with
  | add addend => exact added run
  | subtract subtrahend =>
      rw [DecimalCall.run, subtractDecimal, runOn_check_bind_eq_ok] at run
      exact added run.2
  | addCarry addend carry =>
      have performs := sound.performs_onRange nonempty (.addDecimalCarry · range carry) run
      refine ⟨performs.width, performs.represented_of_stays stands ?_ fun _ => rfl⟩
      rw [ReversibleCall.place, count]
      exact StateVector.addDecimalCarryIndex_of_holdsInvalid length _ invalid
  | addWithCarry _ _ | subtractWithBorrow _ _ => cases unmeasured

/-- The operators that measure a carry leave the basis state without the carry. -/
theorem Physical.decimal_clears (physical : reg.Physical) (length : range.length = 4 * digits)
    (stands : reg.InBasisState index) (invalid : HoldsInvalid range digits index)
    {call : DecimalCall} (taken : call.measured = some carry)
    (run : (call.run range).runOn reg = (.ok (), left)) :
    left.width = reg.width ∧ left.InBasisState (index.clear (.power carry)) := by
  have nonempty := invalid.length_ne_zero length
  have count : range.length / 4 = digits := by omega
  have cleared {addend : Bool → ℕ}
      (run : (onCarry range carry noExtra fun set => addDecimalCarry (addend set) range carry).runOn
        reg = (.ok (), left)) :
      left.width = reg.width ∧ left.InBasisState (index.clear (.power carry)) := by
    obtain ⟨prepared, set, measured, -, -, continues⟩ :=
      physical.onCarry_continues nonempty (calls_addDecimalCarry range carry addend) run
    obtain rfl : set = index.testBit carry :=
      continues.set_eq fun other below some =>
        congrArg (Nat.testBit · carry) ((stands.only other below).mp some)
    -- the index without carry holds the same digits, so that it stays where it is
    have stays : (ReversibleCall.addDecimalCarry
        (addend (index.testBit carry) % (2 * decimalSpan range)) range carry).place
          (index.clear (.power carry)) = index.clear (.power carry) := by
      have still : HoldsInvalid range digits (index.clear (.power carry)) := by
        rw [holdsInvalid_iff length, QubitRange.read_clear_power prepared.carried.outside]
        exact (holdsInvalid_iff length).mp invalid
      rw [ReversibleCall.place, count]
      exact StateVector.addDecimalCarryIndex_of_holdsInvalid length _ still
    have within : index.clear (.power carry) < 2 ^ left.width :=
      continues.width ▸ BasisIndex.clear_lt stands.below _
    refine ⟨continues.width, within, fun image below => ⟨fun some => ?_, ?_⟩⟩
    · rw [continues.width] at below
      obtain ⟨other, within, -, present, found⟩ := continues.others image below some
      rw [← found, (stands.only other within).mp present]
      exact stays
    · rintro rfl
      rw [← stays, Ne, continues.represented_place_eq_zero_iff stands.below rfl]
      exact (stands.only index stands.below).mpr rfl
  cases call with
  | addWithCarry addend _ | subtractWithBorrow subtrahend _ =>
      obtain rfl := Option.some.inj taken
      exact cleared run
  | add _ | subtract _ | addCarry _ _ => cases taken

/-- A basis state whose range holds a digit above nine stays under a decimal operator that returns,
except that a carry which is measured is cleared. -/
theorem decimal_of_invalid (reachable : reg.Reachable) (length : range.length = 4 * digits)
    (stands : reg.InBasisState index) (invalid : HoldsInvalid range digits index) (call : DecimalCall)
    (unitary : call.measured ≠ none → reg.pending.Unitary)
    (run : (call.run range).runOn reg = (.ok (), left)) :
    left.width = reg.width ∧
      (call.measured = none →
        ∀ other < 2 ^ reg.width, left.represented other = reg.represented other) ∧
      left.InBasisState (call.leaves index) ∧
      (left.InBasisState index ↔ ∀ carry ∈ call.measured, index.testBit carry = false) := by
  have sound := reachable.sound
  cases taken : call.measured with
  | none =>
      obtain ⟨width, same⟩ := sound.decimal_stays length stands invalid taken run
      have still : left.InBasisState index := by
        refine ⟨width ▸ stands.below, fun other below => ?_⟩
        rw [width] at below
        rw [same other below]
        exact stands.only other below
      rw [DecimalCall.leaves, taken]
      exact ⟨width, fun _ => same, still, iff_of_true still nofun⟩
  | some carry =>
      have nonzero : reg.state index.testBit ≠ 0 := by
        rw [← sound.toComplex_represented, Ne, Amplitude.toComplex_eq_zero_iff]
        exact (stands.only index stands.below).mpr rfl
      have physical : reg.Physical := sound.physical (unitary (by rw [taken]; exact nofun))
        (sound.tree.normSq_pos_iff.mp (sound.normSq_pos nonzero))
      obtain ⟨width, clear⟩ := physical.decimal_clears length stands invalid taken run
      rw [DecimalCall.leaves, taken]
      refine ⟨width, nofun, clear, ?_⟩
      simp only [Option.mem_some, forall_eq']
      constructor
      · intro still
        have bit := congrArg (Nat.testBit · carry) (still.unique clear)
        simpa [BasisIndex.testBit_clear_power] using bit
      · intro unset
        rwa [BasisIndex.clear_power_of_testBit_eq_false unset] at clear

/-- Nothing is added to ten in a range of one digit, and the carry is gone afterwards. -/
theorem decimal_of_invalid_ten :
    ∃ reg left : Register ℝ, create 5 26 exactConfig 0 = .ok reg ∧ reg.InBasisState 26 ∧
      (addDecimalWithCarry 0 ⟨0, 4⟩ 4).runOn reg = (.ok (), left) ∧
        left.InBasisState 10 ∧ ¬ left.InBasisState 26 := by
  obtain ⟨reg, made, ready, width, config, factory, represented⟩ :=
    exists_ready_of_basis 5 (by decide) (show 26 < 2 ^ 5 by decide)
  have narrow : reg.width ≤ exactConfig.denseLimit := by
    rw [width]
    decide
  have stands : reg.InBasisState 26 := by
    refine ⟨by rw [width]; decide, fun other below => ?_⟩
    rw [represented other (width ▸ below), ite_ne_right_iff]
    exact and_iff_left Amplitude.one_ne_zero
  have carried : StateVector.Carried ⟨0, 4⟩ 4 reg.width := by
    rw [width]
    exact ⟨by decide, by decide, by decide, rfl⟩
  obtain ⟨left, run⟩ : ∃ left, (addDecimalWithCarry 0 ⟨0, 4⟩ 4).runOn reg = (.ok (), left) :=
    ready.physical.exists_onCarry (prepared_of_narrow config factory narrow carried) rfl
      (accepts_of_narrow factory narrow) (calls_addDecimalCarry ⟨0, 4⟩ 4 _)
      fun _ => ⟨carried, rfl⟩
  have invalid : HoldsInvalid ⟨0, 4⟩ 1 26 := ⟨0, by decide, by decide⟩
  obtain ⟨-, -, leaves, same⟩ := decimal_of_invalid ready.reachable rfl stands invalid
    (.addWithCarry 0 4) (fun _ => ready.unitary) run
  exact ⟨reg, left, made, stands, run, leaves, fun still => Bool.noConfusion (same.mp still 4 rfl)⟩

end AmplitudeTree.Register
