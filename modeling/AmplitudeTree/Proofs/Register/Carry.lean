import AmplitudeTree.Proofs.Register.LateFailure
import AmplitudeTree.Proofs.Register.Parity
import AmplitudeTree.Proofs.StateVector.Reversible

/-!
# Operators that continue from a carry

An operator with carry measures the carry qubit, clears it and adds to the range that the carry
extends.  Of the basis states with the measured carry each goes to a place of its own, all of them
are brought to norm one by one factor, and nothing is left of the others.
-/

namespace AmplitudeTree.Register

open AmplitudeTree.Action
open StateVector (ReversibleCall)
open AmplitudeTree.Tree (projected)

variable {reg measured start left : Register ℝ} {range : QubitRange} {carry : ℕ} {set : Bool}
  {extra : Register ℝ → Except (RegisterError ℝ) Unit} {action : Bool → Action ℝ Unit}
  {call : ReversibleCall} {calls : Bool → ReversibleCall}

/-! ## The measured carry -/

/-- The basis states with the measured carry have moved to where it is clear, and
no others are left. -/
structure CarryCleared (measured : Register ℝ) (carry : ℕ) (set : Bool) (start : Register ℝ) : Prop
    extends Retains measured start where
  kept : ∀ index < 2 ^ measured.width, index.testBit carry = set →
    start.represented (index.clear (.power carry)) = measured.represented index
  cleared : ∀ index < 2 ^ measured.width, index.testBit carry = true → start.represented index = 0

theorem Sound.represented_waiting_pauliX (sound : reg.Sound)
    (free : reg.pending.get? carry = none) (inside : carry < reg.width) {index source : BasisIndex}
    (flipped : source.testBit = Function.update index.testBit carry (!index.testBit carry)) :
    (reg.waiting .pauliX carry).represented index = reg.represented source := by
  have joined : ∀ waiting, reg.pending.get? carry = some waiting → waiting.IsUnitary := by
    rw [free]
    exact nofun
  apply Amplitude.toComplex_injective
  rw [(sound.waiting _ _).toComplex_represented, sound.toComplex_represented,
    sound.state_waiting joined Gate.pauliX_isUnitary inside, Gate.act_pauliX, flipped]

/-- A carry that is taken has been measured, and is cleared. -/
theorem Sound.takeCarry_cleared (sound : reg.Sound) (inside : carry < reg.width)
    (run : (takeCarry carry).runOn reg = (.ok set, start)) :
    ∃ measured, (measure carry).runOn reg = (.ok set, measured) ∧ Retains reg measured ∧
      CarryCleared measured carry set start := by
  obtain ⟨outcome, ⟨_, failed, -⟩ | ⟨measured, measures, retains, free, -, only⟩⟩ :=
    sound.measure_cases inside
  · cases (runOn_bind_of_error failed _).symm.trans run
  have within : carry < measured.width := inside.trans_eq retains.width.symm
  cases (runOn_takeCarry measures within).symm.trans run
  -- the measurement leaves nothing of the other value
  have gone (index : BasisIndex) (differs : index.testBit carry ≠ set) :
      measured.represented index = 0 := by
    apply Amplitude.toComplex_injective
    rw [retains.sound.toComplex_represented, ← only, projected, if_neg differs,
      Amplitude.toComplex_zero]
  refine ⟨measured, measures, retains, ?_⟩
  cases set with
  | false =>
      refine ⟨retains.sound.retains_refl, fun index below found => ?_, fun index below found => ?_⟩
      · rw [if_neg Bool.false_ne_true, BasisIndex.clear_power_of_testBit_eq_false found]
      · exact gone index (by rw [found]; exact Bool.noConfusion)
  | true =>
      refine ⟨⟨retains.sound.waiting _ _, rfl, rfl, rfl⟩, fun index below found => ?_,
        fun index below found => ?_⟩
      · have source : index.testBit = Function.update (index.clear (.power carry)).testBit carry
            (!(index.clear (.power carry)).testBit carry) := by
          rw [BasisIndex.testBit_clear_power, Function.update_self, Function.update_idem,
            Bool.not_false, ← found, Function.update_eq_self]
        exact retains.sound.represented_waiting_pauliX free within source
      · have source : (BasisIndex.clear index (.power carry)).testBit =
            Function.update index.testBit carry (!index.testBit carry) := by
          rw [BasisIndex.testBit_clear_power, found, Bool.not_true]
        rw [if_pos rfl, retains.sound.represented_waiting_pauliX free within source]
        refine gone _ ?_
        rw [BasisIndex.testBit_clear_power, Function.update_self]
        exact Bool.noConfusion

/-- A measurement of the carry brings the basis states with this carry to norm one. -/
theorem Physical.parityKept_measured (physical : reg.Physical) (inside : carry < reg.width)
    (run : (measure carry).runOn reg = (.ok set, measured)) :
    ParityKept reg (.power carry) set (reg.parityWeight (.power carry) set) measured := by
  obtain ⟨_, ran, -, collapses⟩ := physical.measureQubit_drawn inside
  cases ran.symm.trans run
  exact collapses.parityKept physical.toSound

theorem ParityKept.exists_represented_ne_zero
    (kept : ParityKept reg (.power carry) set (reg.parityWeight (.power carry) set) measured) :
    ∃ index < 2 ^ reg.width, index.testBit carry = set ∧ measured.represented index ≠ 0 := by
  obtain ⟨factor, unit, represented⟩ := kept.represented
  obtain ⟨index, member, counts⟩ :=
    Finset.exists_ne_zero_of_sum_ne_zero (right_ne_zero_of_mul_eq_one unit)
  rw [ite_ne_right_iff] at counts
  obtain ⟨found, some⟩ := counts
  have below := Finset.mem_range.mp member
  refine ⟨index, below, (StateVector.isOdd_power ..).symm.trans found, ?_⟩
  rw [represented index below, if_pos found, Ne, Amplitude.mul_eq_zero_iff_of_unit unit,
    ← Amplitude.normSq_eq_zero_iff]
  exact some

/-! ## Reversible calls on registers -/

/-- The amplitudes of a register have gone to their places under a call, some of them negated. -/
structure Moved (reg : Register ℝ) (call : ReversibleCall) (left : Register ℝ) : Prop where
  width : left.width = reg.width
  bijOn : Set.BijOn call.place (Set.Iio (2 ^ reg.width)) (Set.Iio (2 ^ reg.width))
  represented : ∀ index < 2 ^ reg.width, left.represented (call.place index) =
    if call.negates index then -reg.represented index else reg.represented index

theorem Sound.moved (sound : reg.Sound) (accepts : call.Accepts reg.width) :
    Moved reg call (reg.replaced (call.result reg.vector).amplitudes) := by
  obtain ⟨width, represented⟩ := sound.replaced (call.result reg.vector).amplitudes
  obtain ⟨-, bijective, moved⟩ :=
    ReversibleCall.rearranges_result (size_vector reg) accepts
  rw [size_vector, width_vector] at bijective moved
  refine ⟨width, bijective, fun index below => ?_⟩
  rw [represented _ (bijective.mapsTo below), ← amplitudeD_vector below]
  exact moved index below

theorem Moved.represented_eq_zero_iff (moved : Moved reg call left) {index : BasisIndex}
    (below : index < 2 ^ reg.width) :
    left.represented (call.place index) = 0 ↔ reg.represented index = 0 := by
  rw [moved.represented index below, Amplitude.negated_eq_zero_iff]

/-- A reversible call returns if the vector can be made, the operands are accepted and some
amplitude is not zero. -/
theorem Sound.runOn_reversible_eq_ok (sound : reg.Sound) :
    (withArithmetic fun v => call.run v).runOn reg = (.ok (), left) ↔
      Expands reg [.arithmetic] ∧ call.Accepts reg.width ∧
        (∃ index < 2 ^ reg.width, reg.represented index ≠ 0) ∧
          left = reg.replaced (call.result reg.vector).amplitudes := by
  have some : ¬ reg.vector.Vanishes ↔ ∃ index < 2 ^ reg.width, reg.represented index ≠ 0 := by
    rw [vanishes_vector_iff]
    push Not
    rfl
  rw [withArithmetic, sound.runOn_withVector_eq_ok, ← some]
  refine and_congr_right fun _ => ?_
  constructor
  · rintro ⟨v, found, remains, rfl⟩
    obtain ⟨v', ran, returned⟩ := bind_eq_ok.mp found
    cases returned
    obtain ⟨accepts, rfl⟩ := ReversibleCall.run_eq_ok.mp ran
    have rearranges := ReversibleCall.rearranges_result (size_vector reg) accepts
    exact ⟨accepts, mt rearranges.vanishes_iff.mpr remains, rfl⟩
  · rintro ⟨accepts, remains, rfl⟩
    have rearranges := ReversibleCall.rearranges_result (size_vector reg) accepts
    refine ⟨call.result reg.vector, bind_eq_ok.mpr ⟨_, ?_, rfl⟩, mt rearranges.vanishes_iff.mp remains,
      rfl⟩
    exact ReversibleCall.run_eq_ok.mpr ⟨accepts, rfl⟩

/-! ## Continuing -/

/-- Every basis state with the measured carry goes to a place of its own, perhaps negated; no others
are left. -/
structure Relocates (measured : Register ℝ) (carry : ℕ) (set : Bool)
    (place : BasisIndex → BasisIndex) (negates : BasisIndex → Bool) (left : Register ℝ) : Prop where
  width : left.width = measured.width
  injOn : Set.InjOn place {index | index < 2 ^ measured.width ∧ index.testBit carry = set}
  kept : ∀ index < 2 ^ measured.width, index.testBit carry = set → left.represented (place index) =
    if negates index then -measured.represented index else measured.represented index
  others : ∀ image < 2 ^ measured.width, left.represented image ≠ 0 →
    ∃ index < 2 ^ measured.width, index.testBit carry = set ∧ measured.represented index ≠ 0 ∧
      place index = image

/-- As `Relocates`, with all amplitudes multiplied by one factor that brings them to norm one. -/
structure Continues (reg : Register ℝ) (carry : ℕ) (set : Bool)
    (place : BasisIndex → BasisIndex) (negates : BasisIndex → Bool) (left : Register ℝ) : Prop where
  width : left.width = reg.width
  injOn : Set.InjOn place {index | index < 2 ^ reg.width ∧ index.testBit carry = set}
  kept : ∃ factor : Amplitude ℝ, factor.normSq * reg.parityWeight (.power carry) set = 1 ∧
    ∀ index < 2 ^ reg.width, index.testBit carry = set → left.represented (place index) =
      if negates index then -(factor * reg.represented index) else factor * reg.represented index
  others : ∀ image < 2 ^ reg.width, left.represented image ≠ 0 → ∃ index < 2 ^ reg.width,
    index.testBit carry = set ∧ reg.represented index ≠ 0 ∧ place index = image

section

variable {place : BasisIndex → BasisIndex} {negates : BasisIndex → Bool}

theorem Continues.represented_place_eq_zero_iff (continues : Continues reg carry set place negates left)
    {index : BasisIndex} (below : index < 2 ^ reg.width) (found : index.testBit carry = set) :
    left.represented (place index) = 0 ↔ reg.represented index = 0 := by
  obtain ⟨factor, unit, kept⟩ := continues.kept
  rw [kept index below found, Amplitude.negated_eq_zero_iff, Amplitude.mul_eq_zero_iff_of_unit unit]

/-- If the carry has one value wherever there is an amplitude, this value is measured. -/
theorem Continues.set_eq (continues : Continues reg carry set place negates left) {value : Bool}
    (only : ∀ index < 2 ^ reg.width, reg.represented index ≠ 0 → index.testBit carry = value) :
    set = value := by
  by_contra different
  obtain ⟨factor, unit, -⟩ := continues.kept
  have none : reg.parityWeight (.power carry) set = 0 := by
    refine Finset.sum_eq_zero fun index member => ?_
    rw [StateVector.isOdd_power]
    split
    · next found =>
        rw [Amplitude.normSq_eq_zero_iff]
        by_contra some
        exact different (found.symm.trans (only index (Finset.mem_range.mp member) some))
    · rfl
  rw [none, mul_zero] at unit
  exact zero_ne_one unit

end

theorem CarryCleared.relocates (cleared : CarryCleared measured carry set start)
    (inside : carry < measured.width) (moved : Moved start call left) :
    Relocates measured carry set (fun index => call.place (index.clear (.power carry)))
      (fun index => call.negates (index.clear (.power carry))) left := by
  have widths : start.width = measured.width := cleared.width
  refine ⟨moved.width.trans widths, fun index held other held' same => ?_,
    fun index below found => ?_, fun image below some => ?_⟩
  · have same := moved.bijOn.injOn (widths ▸ BasisIndex.clear_lt held.1 _)
      (widths ▸ BasisIndex.clear_lt held'.1 _) same
    exact BasisIndex.eq_of_clear_power (held.2.trans held'.2.symm) same
  · rw [moved.represented _ (widths ▸ BasisIndex.clear_lt below _), cleared.kept index below found]
  · -- what is left comes from an index without carry, and this from one with the measured carry
    obtain ⟨source, inSource, rfl⟩ := moved.bijOn.surjOn (widths ▸ below)
    have bound : source < 2 ^ measured.width := widths ▸ inSource
    have present := mt (moved.represented_eq_zero_iff inSource).mpr some
    have clear : Nat.testBit source carry = false :=
      Bool.eq_false_iff.mpr (mt (cleared.cleared source bound) present)
    obtain ⟨index, below', found, rfl⟩ := BasisIndex.exists_clear_power bound inside clear set
    refine ⟨index, below', found, ?_, rfl⟩
    rwa [cleared.kept index below' found] at present

/-- What is relocated from a measured register continues from the register before. -/
theorem Relocates.continues {place : BasisIndex → BasisIndex} {negates : BasisIndex → Bool}
    (relocates : Relocates measured carry set place negates left)
    (weighed : ParityKept reg (.power carry) set (reg.parityWeight (.power carry) set) measured) :
    Continues reg carry set place negates left := by
  have widths := weighed.width
  obtain ⟨factor, unit, represented⟩ := weighed.represented
  simp only [StateVector.isOdd_power] at represented
  refine ⟨relocates.width.trans widths, widths ▸ relocates.injOn,
    ⟨factor, unit, fun index below found => ?_⟩, fun image below some => ?_⟩
  · rw [relocates.kept index (widths ▸ below) found, represented index below, if_pos found]
  · obtain ⟨index, below', found, present, placed⟩ := relocates.others image (widths ▸ below) some
    rw [widths] at below'
    refine ⟨index, below', found, fun none => present ?_, placed⟩
    rw [represented index below', if_pos found, Amplitude.mul_eq_zero_iff_of_unit unit, none]

/-- On a range that is not empty, an operator with carry checks the carried range, takes the carry
and goes on. -/
theorem onCarry_eq_ok (nonempty : range.length ≠ 0) :
    (onCarry range carry extra action).runOn reg = (.ok (), left) ↔
      Prepared reg range carry ∧ extra reg = .ok () ∧ ∃ set start,
        (takeCarry carry).runOn reg = (.ok set, start) ∧
          (action set).runOn start = (.ok (), left) := by
  rw [onCarry, runOn_check_bind_eq_ok, runOn_check_bind_eq_ok, if_pos (bne_iff_ne.mpr nonempty),
    runOn_bind_eq_ok, ← prepared_iff, and_iff_left nonempty]

/-- The rest of an operator with carry is a reversible call that depends on the carry. -/
def Calls (range : QubitRange) (carry : ℕ) (action : Bool → Action ℝ Unit)
    (calls : Bool → ReversibleCall) : Prop :=
  ∀ set {start : Register ℝ}, start.Sound → Prepared start range carry →
    (action set).runOn start = (withArithmetic fun v => (calls set).run v).runOn start

/-- What an operator with carry leaves if it returns, whatever gates waited. -/
theorem Sound.onCarry_relocates (sound : reg.Sound) (nonempty : range.length ≠ 0)
    (rest : Calls range carry action calls)
    (run : (onCarry range carry extra action).runOn reg = (.ok (), left)) :
    Prepared reg range carry ∧ ∃ set measured, (measure carry).runOn reg = (.ok set, measured) ∧
      (calls set).Accepts reg.width ∧
      Relocates measured carry set (fun index => (calls set).place (index.clear (.power carry)))
        (fun index => (calls set).negates (index.clear (.power carry))) left := by
  obtain ⟨prepared, -, set, start, ran, continued⟩ := (onCarry_eq_ok nonempty).mp run
  have inside := prepared.carried.below
  obtain ⟨measured, measures, retains, cleared⟩ := sound.takeCarry_cleared inside ran
  have kept := retains.trans cleared.toRetains
  rw [rest set kept.sound (prepared.retains kept), kept.sound.runOn_reversible_eq_ok] at continued
  obtain ⟨-, accepts, -, rfl⟩ := continued
  refine ⟨prepared, set, measured, measures, kept.width ▸ accepts, ?_⟩
  exact cleared.relocates (inside.trans_eq retains.width.symm) (kept.sound.moved accepts)

/-- What an operator with carry leaves of a physical register if it returns. -/
theorem Physical.onCarry_continues (physical : reg.Physical) (nonempty : range.length ≠ 0)
    (rest : Calls range carry action calls)
    (run : (onCarry range carry extra action).runOn reg = (.ok (), left)) :
    Prepared reg range carry ∧ ∃ set measured, (measure carry).runOn reg = (.ok set, measured) ∧
      (calls set).Accepts reg.width ∧
      Continues reg carry set (fun index => (calls set).place (index.clear (.power carry)))
        (fun index => (calls set).negates (index.clear (.power carry))) left := by
  obtain ⟨prepared, set, measured, measures, accepts, relocates⟩ :=
    physical.toSound.onCarry_relocates nonempty rest run
  exact ⟨prepared, set, measured, measures, accepts,
    relocates.continues (physical.parityKept_measured prepared.carried.below measures)⟩

/-- An operator with carry returns if it accepts its operands and the state vector can be made. -/
theorem Physical.exists_onCarry (physical : reg.Physical) (prepared : Prepared reg range carry)
    (passes : extra reg = .ok ()) (factory : ¬ reg.Refuses)
    (rest : Calls range carry action calls) (accepts : ∀ set, (calls set).Accepts reg.width) :
    ∃ left, (onCarry range carry extra action).runOn reg = (.ok (), left) := by
  have inside := prepared.carried.below
  obtain ⟨measured, measures, -, collapses⟩ := physical.measureQubit_drawn inside
  generalize reg.choice none (reg.chance carry true) = set at measures collapses
  have weighed := collapses.parityKept physical.toSound
  obtain ⟨start, ran⟩ : ∃ start, (takeCarry carry).runOn reg = (.ok set, start) :=
    ⟨_, runOn_takeCarry measures (inside.trans_eq collapses.width.symm)⟩
  obtain ⟨_, measures', retains, cleared⟩ := physical.toSound.takeCarry_cleared inside ran
  cases measures.symm.trans measures'
  have kept := retains.trans cleared.toRetains
  obtain ⟨index, below, found, present⟩ := weighed.exists_represented_ne_zero
  have ready := prepared.retains kept
  have some : ∃ index < 2 ^ start.width, start.represented index ≠ 0 := by
    refine ⟨index.clear (.power carry), kept.width ▸ BasisIndex.clear_lt below _, ?_⟩
    rwa [cleared.kept index (retains.width ▸ below) found]
  have offered : ¬ start.Refuses := by rwa [Refuses, kept.factory, kept.width]
  have continued := kept.sound.runOn_reversible_eq_ok.mpr
    ⟨⟨ready.offered, ready.dense, offered⟩, kept.width ▸ accepts set, some, rfl⟩
  rw [← rest set kept.sound ready] at continued
  exact ⟨_, (onCarry_eq_ok prepared.carried.nonempty).mpr
    ⟨prepared, passes, set, start, ran, continued⟩⟩

/-- A narrow register with the exact settings accepts every carried range that it has. -/
theorem prepared_of_narrow (config : reg.config = exactConfig)
    (factory : reg.factory = .ofLimit exactConfig.denseLimit)
    (narrow : reg.width ≤ exactConfig.denseLimit)
    (carried : StateVector.Carried range carry reg.width) : Prepared reg range carry :=
  have expands := expands_of_narrow config factory narrow [.arithmetic]
  ⟨expands.offered, expands.dense, carried⟩

/-! ## Complements -/

/-- What is taken away is added as its complement, which carries just in case there is no borrow. -/
theorem complement_carries {modulus taken : ℕ} (most : taken ≤ modulus) (value : ℕ) :
    (value + (modulus - taken)) % modulus = (value + modulus - taken) % modulus ∧
      (modulus ≤ value + (modulus - taken) ↔ taken ≤ value) := by
  rw [Nat.add_sub_assoc most]
  exact ⟨rfl, by omega⟩

end AmplitudeTree.Register
