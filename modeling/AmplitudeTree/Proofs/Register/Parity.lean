import AmplitudeTree.Proofs.Register.Outcome
import AmplitudeTree.Proofs.Register.WriteBack
import AmplitudeTree.Proofs.StateVector.Parity
import Mathlib.Tactic.IntervalCases

/-!
# Parity measurements

The parity of one qubit is measured on the tree, relative to the norm of the state.  The parity of
several qubits is measured on a state vector, which takes the mass of odd parity itself for a
probability.  For a state of norm one this is the probability, and the two measurements differ only in
outcomes that are no more probable than rounding: the state vector refuses them.
-/

namespace AmplitudeTree.Register

open AmplitudeTree.Action
open AmplitudeTree.StateVector (isOdd)
open AmplitudeTree.Tree (projected)

variable {reg left : Register ℝ} {mask : BasisIndex} {odd : Bool}

/-! ## Weights -/

noncomputable def parityWeight (reg : Register ℝ) (mask : BasisIndex) (odd : Bool) : ℝ :=
  ∑ index ∈ Finset.range (2 ^ reg.width),
    if isOdd mask index = odd then (reg.represented index).normSq else 0

noncomputable def totalWeight (reg : Register ℝ) : ℝ :=
  ∑ index ∈ Finset.range (2 ^ reg.width), (reg.represented index).normSq

theorem Sound.totalWeight_eq (sound : reg.Sound) : reg.totalWeight = mass reg.width reg.state := by
  rw [totalWeight, mass_eq_sum]
  refine Finset.sum_congr rfl fun index _ => ?_
  rw [Amplitude.normSq_eq, sound.toComplex_represented]

theorem Sound.parityWeight_power (sound : reg.Sound) (qubit : ℕ) (odd : Bool) :
    reg.parityWeight (.power qubit) odd = mass reg.width (projected qubit odd reg.state) := by
  rw [parityWeight, mass_eq_sum]
  refine Finset.sum_congr rfl fun index _ => ?_
  rw [StateVector.isOdd_power, projected, apply_ite Complex.normSq, map_zero, Amplitude.normSq_eq,
    sound.toComplex_represented]

theorem massWhere_vector (reg : Register ℝ) (mask : BasisIndex) (odd : Bool) :
    reg.vector.massWhere (fun index => isOdd mask index == odd) = reg.parityWeight mask odd := by
  rw [StateVector.massWhere_eq, size_vector, width_vector, parityWeight]
  refine Finset.sum_congr rfl fun index member => ?_
  rw [StateVector.weightAt, amplitudeD_vector (Finset.mem_range.mp member), Amplitude.normSq_eq]
  exact if_congr beq_iff_eq rfl rfl

theorem massWhere_vector_true (reg : Register ℝ) (mask : BasisIndex) :
    reg.vector.massWhere (isOdd mask) = reg.parityWeight mask true := by
  rw [← massWhere_vector]
  congr 1
  funext index
  cases isOdd mask index <;> rfl

/-! ## What a measurement leaves -/

def Unchanged (reg left : Register ℝ) : Prop :=
  left.width = reg.width ∧ ∀ index, left.represented index = reg.represented index

theorem Settles.unchanged (settles : Settles reg left) (sound : reg.Sound) : Unchanged reg left :=
  ⟨settles.width, settles.represented sound⟩

/-- The amplitudes of one parity are kept, multiplied by a factor, and those of the
other one are gone. -/
structure ParityKept (reg : Register ℝ) (mask : BasisIndex) (odd : Bool) (share : ℝ)
    (left : Register ℝ) : Prop where
  width : left.width = reg.width
  represented : ∃ factor : Amplitude ℝ, factor.normSq * share = 1 ∧ ∀ index < 2 ^ reg.width,
    left.represented index = if isOdd mask index = odd then factor * reg.represented index else 0

/-- A measurement of a parity returns `odd` and keeps this parity if it is possible; otherwise it
fails and keeps all. -/
structure ParityMeasured (reg : Register ℝ) (mask : BasisIndex) (forced : Option Bool) (odd : Bool)
    (share : ℝ) (possible : Prop) : Prop where
  returns : possible → ∃ left, (measureParity mask forced).runOn reg = (.ok odd, left) ∧
    ParityKept reg mask odd share left
  fails : ¬ possible → ∃ e left, (measureParity mask forced).runOn reg = (.error e, left) ∧
    Unchanged reg left

/-! ## Masks -/

theorem checkMask_eq_ok (some : mask ≠ 0) (inside : mask < 2 ^ reg.width) :
    reg.checkMask mask = .ok () :=
  checkQubit_eq_ok.mpr ((Nat.log2_lt some).mpr inside)

theorem runOn_probParity (some : mask ≠ 0) (inside : mask < 2 ^ reg.width) :
    (probParity mask).runOn reg =
      (if mask.isPower then prob mask.highestSet
        else do
          let mask ← query (·.maskWord mask)
          inspectVector [.parity] fun v => .ok (v.probParity mask)).runOn reg := by
  have proper : ¬ (mask == 0) = true := by simpa using some
  rw [probParity, if_neg proper, runOn_bind, runOn_check, checkMask_eq_ok some inside]

noncomputable def parityOperator (mask : BasisIndex) (forced : Option Bool) (v : StateVector ℝ) :
    Except VectorError (Bool × StateVector ℝ) :=
  (v.measureParity mask forced).1.map fun odd => (odd, (v.measureParity mask forced).2)

theorem runOn_measureParity (some : mask ≠ 0) (inside : mask < 2 ^ reg.width)
    (forced : Option Bool) :
    (measureParity mask forced).runOn reg =
      (if mask.isPower then measureQubit mask.highestSet forced true
        else do
          let mask ← query (·.maskWord mask)
          withVector [.parity] (parityOperator mask forced)).runOn reg := by
  have proper : ¬ (mask == 0) = true := by simpa using some
  rw [measureParity, if_neg proper, runOn_bind, runOn_check, checkMask_eq_ok some inside]
  rfl

/-! ## One qubit -/

theorem CollapsesTo.parityKept {qubit : ℕ} (sound : reg.Sound)
    (collapses : reg.CollapsesTo qubit odd left) :
    ParityKept reg (.power qubit) odd (reg.parityWeight (.power qubit) odd) left := by
  obtain ⟨factor, -, state⟩ := collapses.proportional
  refine ⟨collapses.width, .ofComplex factor, ?_, fun index _ => ?_⟩
  · have unit := collapses.unit
    rw [state, mass_smul] at unit
    rw [Amplitude.normSq_eq, Amplitude.toComplex_ofComplex, sound.parityWeight_power, unit]
  · apply Amplitude.toComplex_injective
    rw [collapses.physical.toSound.toComplex_represented, state, Pi.smul_apply, smul_eq_mul,
      projected, StateVector.isOdd_power]
    split
    · rw [Amplitude.toComplex_mul, Amplitude.toComplex_ofComplex, sound.toComplex_represented]
    · rw [mul_zero, Amplitude.toComplex_zero]

theorem Physical.chance_eq_zero_iff (physical : reg.Physical) (qubit : ℕ) (odd : Bool) :
    reg.chance qubit odd = 0 ↔ reg.parityWeight (.power qubit) odd = 0 := by
  rw [physical.toSound.parityWeight_power, chance, div_eq_zero_iff, or_iff_left physical.mass_pos.ne']

/-- The probability of a parity of one qubit is relative to the norm of the state. -/
theorem Physical.probParity_power (physical : reg.Physical) {qubit : ℕ} (inside : qubit < reg.width) :
    ∃ left, (probParity (.power qubit)).runOn reg =
        (.ok (reg.parityWeight (.power qubit) true / reg.totalWeight), left) ∧ Unchanged reg left := by
  have settles := physical.toSound.settles_settleUnlessDiagonal qubit
  refine ⟨_, ?_, settles.unchanged physical.toSound⟩
  rw [runOn_probParity (BasisIndex.power_ne_zero qubit) (BasisIndex.power_lt inside),
    if_pos (BasisIndex.isPower_power qubit), BasisIndex.highestSet_power, physical.runOn_prob inside,
    physical.toSound.totalWeight_eq, physical.toSound.parityWeight_power]
  rfl

theorem runOn_measureParity_power {qubit : ℕ} (inside : qubit < reg.width) (forced : Option Bool) :
    (measureParity (.power qubit) forced).runOn reg = (measureQubit qubit forced true).runOn reg := by
  rw [runOn_measureParity (BasisIndex.power_ne_zero qubit) (BasisIndex.power_lt inside),
    if_pos (BasisIndex.isPower_power qubit), BasisIndex.highestSet_power]

/-- A drawn parity of one qubit is never refused. -/
theorem Physical.measureParity_power_drawn (physical : reg.Physical) {qubit : ℕ}
    (inside : qubit < reg.width) :
    ∃ odd left, (measureParity (.power qubit) none).runOn reg = (.ok odd, left) ∧
      ParityKept reg (.power qubit) odd (reg.parityWeight (.power qubit) odd) left := by
  obtain ⟨left, run, -, collapses⟩ := physical.measureQubit_drawn inside
  exact ⟨_, left, (runOn_measureParity_power inside none).trans run,
    collapses.parityKept physical.toSound⟩

/-- A parity of one qubit that is imposed is refused just in case it has no weight. -/
theorem Physical.measureParity_power_forced (physical : reg.Physical) {qubit : ℕ}
    (inside : qubit < reg.width) (odd : Bool) :
    ParityMeasured reg (.power qubit) (some odd) odd (reg.parityWeight (.power qubit) odd)
      (reg.parityWeight (.power qubit) odd ≠ 0) where
  returns possible := by
    have some := mt (physical.chance_eq_zero_iff qubit odd).mp possible
    have positive := lt_of_le_of_ne (reg.chance_nonneg qubit odd) (Ne.symm some)
    have chosen : reg.choice (.some odd) (reg.chance qubit true) = odd := rfl
    obtain ⟨left, run, -, collapses⟩ := physical.measureQubit_possible inside chosen positive
    exact ⟨left, (runOn_measureParity_power inside _).trans run, collapses.parityKept physical.toSound⟩
  fails impossible := by
    have none := (physical.chance_eq_zero_iff qubit odd).mpr (not_not.mp impossible)
    obtain ⟨left, run, settles⟩ := physical.measureQubit_impossible inside none
    exact ⟨_, left, (runOn_measureParity_power inside _).trans run,
      settles.unchanged physical.toSound⟩

/-! ## Several qubits -/

noncomputable def chosenParity (reg : Register ℝ) (mask : BasisIndex) (forced : Option Bool) : Bool :=
  forced.getD (Scalar.lt ((Generator.ofSeed reg.generator.word.1).unit : ℝ × Generator).1
    (reg.parityWeight mask true))

/-- What the measurement of several qubits takes for the probability of a parity. -/
noncomputable def assumedProbability (reg : Register ℝ) (mask : BasisIndex) (odd : Bool) : ℝ :=
  if odd then reg.parityWeight mask true else 1 - reg.parityWeight mask true

theorem chosenParity_vector (reg : Register ℝ) (mask : BasisIndex) (forced : Option Bool) :
    reg.vector.chosenParity mask forced = reg.chosenParity mask forced := by
  rw [StateVector.chosenParity, massWhere_vector_true, vector, generator_settleAll]
  rfl

theorem assumedProbability_vector (reg : Register ℝ) (mask : BasisIndex) (odd : Bool) :
    reg.vector.assumedProbability mask odd = reg.assumedProbability mask odd := by
  rw [StateVector.assumedProbability, massWhere_vector_true]
  rfl

theorem Sound.maskWord_eq_ok (sound : reg.Sound) (expands : Expands reg [.parity])
    (inside : mask < 2 ^ reg.width) : reg.maskWord mask = .ok mask := by
  have narrow := (checkDense_eq_ok.mp expands.dense).trans (denseLimit_lt sound.admitted).le
  have small : mask < 2 ^ BasisIndex.wordBits :=
    inside.trans_le (Nat.pow_le_pow_right two_pos narrow)
  rw [maskWord, BasisIndex.checkWord, if_pos small]
  rfl

/-- The probability of a parity of several qubits is not divided by the norm. -/
theorem Sound.probParity_several (sound : reg.Sound) (expands : Expands reg [.parity])
    (some : mask ≠ 0) (inside : mask < 2 ^ reg.width) (several : mask.isPower = false) :
    ∃ left, (probParity mask).runOn reg = (.ok (reg.parityWeight mask true), left) ∧
      Unchanged reg left := by
  have proper : ¬ (mask == 0) = true := by simpa using some
  refine ⟨reg.listed, ?_, sound.settles_listed.unchanged sound⟩
  rw [runOn_probParity some inside, several, if_neg Bool.false_ne_true, runOn_bind, runOn_query,
    sound.maskWord_eq_ok expands inside]
  dsimp only
  rw [inspectVector, runOn_bind, sound.runOn_toVector expands.offered expands.dense,
    if_neg expands.accepted]
  dsimp only
  rw [runOn_ofExcept, StateVector.probParity, if_neg proper, massWhere_vector_true]
  rfl

theorem Sound.replaced_projectParity (sound : reg.Sound) {generator : Generator} {factor : ℝ}
    {share : ℝ} (inverse : factor * factor * share = 1) :
    ParityKept reg mask odd share (reg.replaced (StateVector.projectParity
      { reg.vector with generator := generator } mask odd factor).amplitudes) := by
  obtain ⟨width, represented⟩ := sound.replaced (StateVector.projectParity
    { reg.vector with generator := generator } mask odd factor).amplitudes
  refine ⟨width, .ofReal factor, ?_, fun index below => ?_⟩
  · simpa [Amplitude.normSq, Amplitude.ofReal] using inverse
  · have entry := StateVector.amplitudeD_projectParity { reg.vector with generator := generator } mask
      odd factor index
    have listed : StateVector.amplitudeD { reg.vector with generator := generator } index =
        reg.represented index := amplitudeD_vector below
    rw [listed] at entry
    rw [represented index below]
    refine entry.trans (if_congr Iff.rfl ?_ rfl)
    apply Amplitude.toComplex_injective
    rw [StateVector.toComplex_scaledBy, Amplitude.toComplex_mul]
    rfl

/-- A measurement returns the parity and what is kept of the vector, if the assumed probability is
more than rounding. -/
theorem parityOperator_vector (reg : Register ℝ) (some : mask ≠ 0) (forced : Option Bool) :
    let odd := reg.chosenParity mask forced
    let kept := reg.assumedProbability mask odd
    ∃ generator, parityOperator mask forced reg.vector =
      if kept ≤ Scalar.machineEpsilon then .error (.impossibleParity odd)
      else .ok (odd, StateVector.projectParity { reg.vector with generator := generator } mask odd
        (1 / Scalar.sqrt kept)) := by
  intro odd kept
  obtain ⟨generator, measured⟩ := reg.vector.measureParity_eq some forced
  rw [chosenParity_vector, assumedProbability_vector] at measured
  refine ⟨generator, ?_⟩
  rw [parityOperator, measured]
  by_cases rounding : kept ≤ Scalar.machineEpsilon
  · rw [if_pos rounding, if_pos ((Scalar.le_iff _ _).mpr rounding)]
    rfl
  · rw [if_neg rounding, if_neg (mt (Scalar.le_iff _ _).mp rounding)]
    rfl

/-- A parity of several qubits is measured if it has weight and its assumed probability is
more than rounding. -/
theorem Sound.measureParity_several (sound : reg.Sound) (expands : Expands reg [.parity])
    (some : mask ≠ 0) (inside : mask < 2 ^ reg.width) (several : mask.isPower = false)
    (forced : Option Bool) :
    let odd := reg.chosenParity mask forced
    let kept := reg.assumedProbability mask odd
    ParityMeasured reg mask forced odd kept
      (Scalar.machineEpsilon < kept ∧ reg.parityWeight mask odd ≠ 0) := by
  intro odd kept
  have run : (measureParity mask forced).runOn reg =
      (withVector [.parity] (parityOperator mask forced)).runOn reg := by
    rw [runOn_measureParity some inside, several, if_neg Bool.false_ne_true, runOn_bind, runOn_query,
      sound.maskWord_eq_ok expands inside]
  obtain ⟨generator, measured⟩ := reg.parityOperator_vector some forced
  have vanishes (counts : Scalar.machineEpsilon < kept) :
      (StateVector.projectParity { reg.vector with generator := generator } mask odd
        (1 / Scalar.sqrt kept)).Vanishes ↔ reg.parityWeight mask odd = 0 := by
    have factor := Scalar.one_div_sqrt_pos (Scalar.machineEpsilon_pos.trans counts)
    rw [StateVector.vanishes_projectParity_iff factor.ne', ← massWhere_vector]
    rfl
  constructor
  · rintro ⟨counts, weighs⟩
    have returned := measured.trans (if_neg (not_le.mpr counts))
    have inverse := Scalar.one_div_sqrt_mul_self (Scalar.machineEpsilon_pos.trans counts)
    exact ⟨_, run.trans (sound.runOn_withVector_eq_ok.mpr
      ⟨expands, _, returned, mt (vanishes counts).mp weighs, rfl⟩),
      sound.replaced_projectParity inverse⟩
  · intro impossible
    rw [run]
    generalize found : (withVector [.parity] (parityOperator mask forced)).runOn reg = answer
    obtain ⟨result, left⟩ := answer
    cases result with
    | error e =>
        exact ⟨e, left, rfl, (traceless_withVector _ _ sound found).unchanged sound⟩
    | ok returnedOdd =>
        obtain ⟨-, v, returned, remains, -⟩ := sound.runOn_withVector_eq_ok.mp found
        rw [measured] at returned
        split at returned
        · cases returned
        · next rounding =>
            cases returned
            have counts := not_le.mp rounding
            exact absurd ⟨counts, mt (vanishes counts).mpr remains⟩ impossible

/-! ## Every register -/

/-- For one qubit the probability of a parity is divided by the norm, and a parity is refused if it
has no weight.  For several qubits it is not divided, so a parity is refused, and what is kept is
scaled, by what is taken for its probability. -/
theorem parity_measured (ready : reg.Ready) (some : mask ≠ 0) (inside : mask < 2 ^ reg.width) :
    (mask.isPower = true →
      (∃ left, (probParity mask).runOn reg =
          (.ok (reg.parityWeight mask true / reg.totalWeight), left) ∧ Unchanged reg left) ∧
      (∃ odd left, (measureParity mask none).runOn reg = (.ok odd, left) ∧
        ParityKept reg mask odd (reg.parityWeight mask odd) left) ∧
      ∀ odd, ParityMeasured reg mask (.some odd) odd (reg.parityWeight mask odd)
        (reg.parityWeight mask odd ≠ 0)) ∧
    (mask.isPower = false → Expands reg [.parity] →
      (∃ left, (probParity mask).runOn reg = (.ok (reg.parityWeight mask true), left) ∧
        Unchanged reg left) ∧
      ∀ forced,
        let odd := reg.chosenParity mask forced
        let kept := reg.assumedProbability mask odd
        ParityMeasured reg mask forced odd kept
          (Scalar.machineEpsilon < kept ∧ reg.parityWeight mask odd ≠ 0)) := by
  have physical := ready.physical
  constructor
  · intro single
    have qubit : mask.highestSet < reg.width := (Nat.log2_lt some).mpr inside
    rw [BasisIndex.eq_power_of_isPower single]
    exact ⟨physical.probParity_power qubit, physical.measureParity_power_drawn qubit,
      physical.measureParity_power_forced qubit⟩
  · intro several expands
    exact ⟨physical.toSound.probParity_several expands some inside several,
      physical.toSound.measureParity_several expands some inside several⟩

/-- Four amplitudes of one: the probability of odd parity is one half for one qubit and two for
both, where even parity is refused. -/
theorem parity_measured_four_ones :
    ∃ fresh reg : Register ℝ, create 2 0 exactConfig 0 = .ok fresh ∧
      (setAmplitudes #[1, 1, 1, 1]).runOn fresh = (.ok (), reg) ∧
      (∃ left, (probParity 1).runOn reg = (.ok (1 / 2), left)) ∧
      (∃ left, (measureParity 1 (some false)).runOn reg = (.ok false, left)) ∧
      (∃ left, (probParity 3).runOn reg = (.ok 2, left)) ∧
      reg.parityWeight 3 false = 2 ∧
        ∃ e left, (measureParity 3 (some false)).runOn reg = (.error e, left) := by
  obtain ⟨fresh, reg, made, run, ready, width, config, factory, represented⟩ :=
    exists_ready_of_amplitudes 2 (by decide) #[1, 1, 1, 1] rfl
      ⟨1, by simp, fun zero => by simpa using congrArg (fun a => a.toComplex.re) zero⟩
  have ones (index : BasisIndex) (below : index < 4) : (reg.represented index).normSq = 1 := by
    rw [represented index below]
    interval_cases index <;> norm_num [Amplitude.normSq_eq]
  have total : reg.totalWeight = 4 := by
    rw [totalWeight, width]
    norm_num [Finset.sum_range_succ, ones]
  have one : BasisIndex.oddParity 1 = true := BasisIndex.oddParity_power 0
  have two : BasisIndex.oddParity 2 = true := BasisIndex.oddParity_power 1
  have three : BasisIndex.oddParity 3 = false := by
    rw [BasisIndex.oddParity, dif_neg (by decide)]
    simp [one]
  have single (odd : Bool) : reg.parityWeight 1 odd = 2 := by
    rw [parityWeight, width]
    cases odd <;> norm_num [Finset.sum_range_succ, ones, isOdd, one]
  have masked : (2 : BasisIndex) &&& 3 = 2 := by decide
  have both (odd : Bool) : reg.parityWeight 3 odd = 2 := by
    rw [parityWeight, width]
    cases odd <;> norm_num [Finset.sum_range_succ, ones, isOdd, masked, one, two, three]
  have narrow : reg.width ≤ exactConfig.denseLimit := by
    rw [width]
    decide
  have expands := expands_of_narrow config factory narrow [.parity]
  obtain ⟨oneQubit, -⟩ := parity_measured ready one_ne_zero (show 1 < 2 ^ reg.width by rw [width]; decide)
  obtain ⟨-, twoQubits⟩ :=
    parity_measured ready (show 3 ≠ 0 by decide) (show 3 < 2 ^ reg.width by rw [width]; decide)
  obtain ⟨⟨left, half, -⟩, -, oneForced⟩ := oneQubit (by decide)
  obtain ⟨⟨left', whole, -⟩, forced⟩ := twoQubits (by decide) expands
  obtain ⟨left'', kept, -⟩ := (oneForced false).returns (by rw [single]; exact two_ne_zero)
  rw [single, total] at half
  rw [both] at whole
  refine ⟨fresh, reg, made, run, ⟨left, ?_⟩, ⟨left'', kept⟩, ⟨left', whole⟩, both false, ?_⟩
  · rw [half]
    norm_num
  · obtain ⟨e, last, refused, -⟩ := (forced (some false)).fails (by
      rintro ⟨counts, -⟩
      have negative : reg.assumedProbability 3 false = -1 := by
        rw [assumedProbability, both]
        norm_num
      have assumed : Scalar.machineEpsilon < reg.assumedProbability 3 false := counts
      rw [negative] at assumed
      linarith [Scalar.machineEpsilon_pos])
    exact ⟨e, last, refused⟩

end AmplitudeTree.Register
