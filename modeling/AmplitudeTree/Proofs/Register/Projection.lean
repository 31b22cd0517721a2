import AmplitudeTree.Proofs.Register.Parity

/-!
# Measurements of one qubit

The probability of a value is the part of the squared norm where the qubit has it, divided by the
whole, although gates on other qubits and a diagonal gate on the qubit itself still wait.  A
measurement that returns a value leaves the part of the state with this value, with norm one; without
a collapse it leaves the state as it was.
-/

namespace AmplitudeTree.Register

open AmplitudeTree.Action
open AmplitudeTree.StateVector (isOdd)

variable {reg left last : Register ℝ} {qubit : ℕ} {value : Bool}

/-! ## Parts of a state -/

noncomputable def weightWhere (reg : Register ℝ) (holds : BasisIndex → Bool) : ℝ :=
  ∑ index ∈ Finset.range (2 ^ reg.width),
    if holds index then (reg.represented index).normSq else 0

/-- The amplitudes that meet a condition are kept, brought to norm one, and the
other ones are gone. -/
structure PartKept (reg : Register ℝ) (holds : BasisIndex → Bool) (left : Register ℝ) : Prop where
  width : left.width = reg.width
  represented : ∃ factor : Amplitude ℝ, factor.normSq * reg.weightWhere holds = 1 ∧
    ∀ index < 2 ^ reg.width,
      left.represented index = if holds index then factor * reg.represented index else 0

def reads (qubit : ℕ) (value : Bool) (index : BasisIndex) : Bool := index.testBit qubit == value

theorem weightWhere_nonneg (reg : Register ℝ) (holds : BasisIndex → Bool) :
    0 ≤ reg.weightWhere holds := by
  refine Finset.sum_nonneg fun index _ => ?_
  split
  · exact Amplitude.normSq_nonneg _
  · exact le_refl 0

theorem weightWhere_congr {holds holds' : BasisIndex → Bool}
    (same : ∀ index < 2 ^ reg.width, holds index = holds' index) :
    reg.weightWhere holds = reg.weightWhere holds' :=
  Finset.sum_congr rfl fun index member => by rw [same index (Finset.mem_range.mp member)]

theorem weightWhere_true (reg : Register ℝ) : reg.weightWhere (fun _ => true) = reg.totalWeight :=
  rfl

/-- The values of a qubit are the parities of the mask of this qubit. -/
theorem weightWhere_reads (reg : Register ℝ) (qubit : ℕ) (value : Bool) :
    reg.weightWhere (reads qubit value) = reg.parityWeight (.power qubit) value := by
  refine Finset.sum_congr rfl fun index _ => ?_
  rw [StateVector.isOdd_power]
  exact if_congr beq_iff_eq rfl rfl

theorem ParityKept.partKept
    (kept : ParityKept reg (.power qubit) value (reg.parityWeight (.power qubit) value) left) :
    PartKept reg (reads qubit value) left where
  width := kept.width
  represented := by
    obtain ⟨factor, unit, represented⟩ := kept.represented
    refine ⟨factor, (weightWhere_reads ..).symm ▸ unit, fun index below => ?_⟩
    rw [represented index below, StateVector.isOdd_power]
    exact if_congr beq_iff_eq.symm rfl rfl

theorem Physical.chance_eq (physical : reg.Physical) (qubit : ℕ) (value : Bool) :
    reg.chance qubit value = reg.weightWhere (reads qubit value) / reg.totalWeight := by
  rw [chance, weightWhere_reads, physical.toSound.parityWeight_power, physical.toSound.totalWeight_eq]

theorem Physical.totalWeight_pos (physical : reg.Physical) : 0 < reg.totalWeight := by
  rw [physical.toSound.totalWeight_eq]
  exact physical.mass_pos

theorem Physical.chance_pos_iff (physical : reg.Physical) :
    0 < reg.chance qubit value ↔ reg.weightWhere (reads qubit value) ≠ 0 := by
  rw [physical.chance_eq, div_pos_iff_of_pos_right physical.totalWeight_pos]
  exact (weightWhere_nonneg _ _).lt_iff_ne'

/-! ## Without a collapse -/

/-- A measurement without a collapse returns an outcome with a positive probability. -/
theorem Physical.measureQubit_observed (physical : reg.Physical) (inside : qubit < reg.width)
    {forced : Option Bool} (chosen : reg.choice forced (reg.chance qubit true) = value)
    (positive : 0 < reg.chance qubit value) :
    (measureQubit qubit forced false).runOn reg =
      (.ok value, (reg.settleUnlessDiagonal qubit).afterChoice forced) := by
  have possible :
      Scalar.le ((reg.settleUnlessDiagonal qubit).likelihood qubit value) 0 = false := by
    rw [physical.likelihood_settled inside, ← Bool.not_eq_true, Scalar.le_iff, not_le]
    exact positive
  rw [runOn_measureQubit physical.toSound inside, physical.choice_settled inside, chosen, possible,
    if_neg (by simp), if_pos (by simp), if_neg (by simp)]

theorem Physical.measureQubit_refused (physical : reg.Physical) (inside : qubit < reg.width)
    (impossible : reg.chance qubit value = 0) (collapse : Bool) :
    (measureQubit qubit (some value) collapse).runOn reg =
      (.error (.impossibleOutcome qubit), reg.settleUnlessDiagonal qubit) := by
  have refused :
      Scalar.le ((reg.settleUnlessDiagonal qubit).likelihood qubit value) 0 = true := by
    rw [physical.likelihood_settled inside, impossible, Scalar.le_iff]
  have chosen : reg.choice (some value) (reg.chance qubit true) = value := rfl
  rw [runOn_measureQubit physical.toSound inside, physical.choice_settled inside, chosen, refused]
  rfl

/-! ## Every register -/

/-- A measurement that returns an outcome leaves the part of the state with it. -/
theorem Physical.measureQubit_partKept (physical : reg.Physical) (inside : qubit < reg.width)
    {forced : Option Bool} (run : (measureQubit qubit forced true).runOn reg = (.ok value, left)) :
    PartKept reg (reads qubit value) left := by
  cases forced with
  | none =>
      obtain ⟨left', drawn, -, collapses⟩ := physical.measureQubit_drawn inside
      rw [drawn] at run
      cases run
      exact (collapses.parityKept physical.toSound).partKept
  | some imposed =>
      by_cases impossible : reg.chance qubit imposed = 0
      · rw [physical.measureQubit_refused inside impossible] at run
        cases run
      · have positive := lt_of_le_of_ne (reg.chance_nonneg qubit imposed) (Ne.symm impossible)
        have chosen : reg.choice (some imposed) (reg.chance qubit true) = imposed := rfl
        obtain ⟨left', returned, -, collapses⟩ := physical.measureQubit_possible inside chosen positive
        rw [returned] at run
        cases run
        exact (collapses.parityKept physical.toSound).partKept

/-- A measurement returns an outcome with a positive probability, whether the state is
to collapse or not. -/
theorem Physical.measureQubit_returns (physical : reg.Physical) (inside : qubit < reg.width)
    {forced : Option Bool} (chosen : reg.choice forced (reg.chance qubit true) = value)
    (positive : 0 < reg.chance qubit value) (collapse : Bool) :
    ∃ left, (measureQubit qubit forced collapse).runOn reg = (.ok value, left) := by
  cases collapse with
  | false => exact ⟨_, physical.measureQubit_observed inside chosen positive⟩
  | true =>
      obtain ⟨left, run, -⟩ := physical.measureQubit_possible inside chosen positive
      exact ⟨left, run⟩

/-- A measurement without a collapse, and one that is refused, keep the state. -/
theorem Physical.measureQubit_unchanged (physical : reg.Physical) (inside : qubit < reg.width)
    (forced : Option Bool) :
    Unchanged reg ((measureQubit qubit forced false).runOn reg).2 := by
  have settles := physical.settles_afterChoice qubit forced
  rw [runOn_measureQubit physical.toSound inside]
  split
  · exact settles.unchanged physical.toSound
  · exact settles.unchanged physical.toSound

/-- The gates on other qubits and a diagonal gate go on waiting when a probability is read. -/
theorem waiting_settleUnlessDiagonal (reg : Register ℝ) {q : ℕ}
    (waits : q ≠ qubit ∨ ∀ gate, reg.pending.get? qubit = some gate →
      gate.isDiagonal reg.threshold = true) :
    (reg.settleUnlessDiagonal qubit).pending.get? q = reg.pending.get? q := by
  unfold settleUnlessDiagonal
  split
  · rfl
  · next gate found =>
      split
      · rfl
      · next sharp =>
          have other := waits.resolve_right fun diagonal => sharp (diagonal gate found)
          rw [settle, found]
          exact PendingGates.get?_erase_of_ne other

/-- The probability of a qubit is its share of the whole weight.  A measurement leaves the
part of the state with the outcome, brought to norm one, up to a global phase.  A drawn
outcome is never refused and an imposed one just in case it has no weight; then, and without a
collapse, the state is kept. -/
theorem qubit_measured (ready : reg.Ready) (inside : qubit < reg.width) :
    let probability := reg.weightWhere (reads qubit true) / reg.totalWeight
    let drawn := (reg.generator.unit : ℝ × Generator).1
    (∃ left, (prob qubit).runOn reg = (.ok probability, left) ∧ Unchanged reg left ∧
      ∀ q, (q ≠ qubit ∨ ∀ gate, reg.pending.get? qubit = some gate → gate.isDiagonal 0 = true) →
        left.pending.get? q = reg.pending.get? q) ∧
    (∀ forced outcome left, (measureQubit qubit forced true).runOn reg = (.ok outcome, left) →
      PartKept reg (reads qubit outcome) left) ∧
    (∀ forced, Unchanged reg ((measureQubit qubit forced false).runOn reg).2) ∧
    (0 ≤ drawn ∧ drawn < 1 ∧ ∀ collapse, ∃ outcome left,
      (measureQubit qubit none collapse).runOn reg = (.ok outcome, left) ∧
        (outcome = true ↔ drawn < probability)) ∧
    ∀ value collapse, ∃ left,
      (reg.weightWhere (reads qubit value) ≠ 0 →
        (measureQubit qubit (some value) collapse).runOn reg = (.ok value, left)) ∧
      (reg.weightWhere (reads qubit value) = 0 →
        (measureQubit qubit (some value) collapse).runOn reg =
          (.error (.impossibleOutcome qubit), left) ∧ Unchanged reg left) := by
  have physical := ready.physical
  have settles := physical.toSound.settles_settleUnlessDiagonal qubit
  intro probability drawn
  have one : reg.chance qubit true = probability := physical.chance_eq qubit true
  refine ⟨⟨_, one ▸ physical.runOn_prob inside, settles.unchanged physical.toSound, ?_⟩, ?_, ?_,
    ⟨reg.generator.unit_nonneg, reg.generator.unit_lt_one, ?_⟩, ?_⟩
  · intro q waits
    rw [← physical.toSound.threshold_eq] at waits
    exact reg.waiting_settleUnlessDiagonal waits
  · intro forced outcome left run
    exact physical.measureQubit_partKept inside run
  · exact physical.measureQubit_unchanged inside
  · intro collapse
    obtain ⟨left, run⟩ :=
      physical.measureQubit_returns inside rfl (physical.chance_drawn_pos qubit) collapse
    refine ⟨_, left, run, ?_⟩
    rw [one]
    exact Scalar.lt_iff _ _
  · intro value collapse
    by_cases weightless : reg.weightWhere (reads qubit value) = 0
    · have impossible : reg.chance qubit value = 0 := by
        rw [physical.chance_eq, weightless, zero_div]
      exact ⟨_, fun weighs => absurd weightless weighs, fun _ =>
        ⟨physical.measureQubit_refused inside impossible collapse, settles.unchanged physical.toSound⟩⟩
    · have positive := physical.chance_pos_iff.mpr weightless
      obtain ⟨left, run⟩ := physical.measureQubit_returns inside
        (show reg.choice (some value) (reg.chance qubit true) = value from rfl) positive collapse
      exact ⟨left, fun _ => run, fun none => absurd none weightless⟩

theorem Physical.weightWhere_reads_waiting (physical : reg.Physical) {gate : Gate ℝ}
    (unitary : gate.IsUnitary) {target : ℕ} (inside : target < reg.width) (other : qubit ≠ target)
    (value : Bool) :
    (reg.waiting gate target).weightWhere (reads qubit value) =
      reg.weightWhere (reads qubit value) := by
  obtain ⟨-, state⟩ := physical.toSound.waiting_state physical.unitary unitary inside
  rw [weightWhere_reads, weightWhere_reads, (physical.toSound.waiting gate target).parityWeight_power,
    physical.toSound.parityWeight_power, state, ← gate.act_projected_of_ne other]
  exact unitary.mass_act inside _

theorem Sound.weightWhere_reads_add (sound : reg.Sound) (qubit : ℕ) :
    reg.weightWhere (reads qubit false) + reg.weightWhere (reads qubit true) = reg.totalWeight := by
  rw [weightWhere_reads, weightWhere_reads, sound.parityWeight_power, sound.parityWeight_power,
    sound.totalWeight_eq]
  exact Tree.mass_projected_add reg.width qubit reg.state

/-- The amplitudes 3 and 4 for one qubit, and a Hadamard gate that waits on the other one. -/
theorem qubit_measured_three_four :
    ∃ fresh reg : Register ℝ, create 2 0 exactConfig 0 = .ok fresh ∧
      (setAmplitudes #[⟨3, 0⟩, ⟨4, 0⟩, 0, 0]).runOn fresh = (.ok (), reg) ∧
      let waiting := ((applyWhere [] true .hadamard 1).runOn reg).2
      (∃ left, (prob 0).runOn waiting = (.ok (16 / 25), left) ∧
        left.pending.get? 1 = waiting.pending.get? 1) ∧
      (∃ left, (measureQubit 0 (some true) true).runOn waiting = (.ok true, left) ∧
        PartKept waiting (reads 0 true) left) ∧
      ∃ outcome left, (measureQubit 0 none true).runOn waiting = (.ok outcome, left) := by
  obtain ⟨fresh, reg, made, run, ready, width, -, -, represented⟩ :=
    exists_ready_of_amplitudes 2 (by decide) #[⟨3, 0⟩, ⟨4, 0⟩, 0, 0] rfl
      ⟨⟨3, 0⟩, by simp, fun zero => three_ne_zero (congrArg Amplitude.re zero)⟩
  refine ⟨fresh, reg, made, run, ?_⟩
  have inside : 1 < reg.width := by rw [width]; decide
  have waits : ((applyWhere [] true .hadamard 1).runOn reg).2 = reg.waiting .hadamard 1 := by
    rw [runOn_applyWhere, List.isEmpty_nil, if_pos rfl, runOn_apply, if_pos inside]
  have real (x : ℝ) : (⟨x, 0⟩ : Amplitude ℝ).normSq = x * x := by simp [Amplitude.normSq]
  have squares (index : BasisIndex) (below : index < 4) :
      (reg.represented index).normSq = if index = 0 then 9 else if index = 1 then 16 else 0 := by
    rw [represented index below]
    interval_cases index <;> norm_num [real, Amplitude.normSq_zero]
  have weight (value : Bool) :
      (reg.waiting .hadamard 1).weightWhere (reads 0 value) = if value then 16 else 9 := by
    rw [ready.physical.weightWhere_reads_waiting Gate.hadamard_isUnitary inside (by decide),
      weightWhere, width]
    cases value <;> norm_num [Finset.sum_range_succ, squares, reads]
  have waitingReady := ready.gate Gate.hadamard_isUnitary [] true 1
  rw [waits] at waitingReady ⊢
  have total : (reg.waiting .hadamard 1).totalWeight = 25 := by
    rw [← waitingReady.reachable.sound.weightWhere_reads_add 0, weight, weight]
    norm_num
  obtain ⟨⟨left, read, -, waiting⟩, kept, -, ⟨-, -, drawn⟩, imposed⟩ :=
    qubit_measured waitingReady (show 0 < (reg.waiting .hadamard 1).width by
      exact (show 0 < 2 by decide).trans_eq width.symm)
  obtain ⟨left', returns, -⟩ := imposed true true
  have returned := returns (by rw [weight]; norm_num)
  obtain ⟨outcome, left'', run', -⟩ := drawn true
  rw [weight, total] at read
  exact ⟨⟨left, read, waiting 1 (Or.inl one_ne_zero)⟩, ⟨left', returned, kept _ _ _ returned⟩,
    outcome, left'', run'⟩

end AmplitudeTree.Register
