import AmplitudeTree.Proofs.Register.Alike.Basic
import AmplitudeTree.Proofs.Register.Measure
import AmplitudeTree.Proofs.Tree.UnitNorm

/-!
# Measurements of alike registers

The probability of a qubit depends on the state alone, although a diagonal gate may still wait on
the qubit when it is read off the tree.  So alike registers with one generator draw the same
outcomes.  A collapse drops the diagonal gate, which turns the phase, and brings the norm to one.
-/

namespace AmplitudeTree

open AmplitudeTree.Action
open AmplitudeTree.Tree (projected projected_smul)

/-- A diagonal unitary gate multiplies the part of a state where its qubit has a value. -/
theorem PendingGates.Unitary.projected_actAt {p : PendingGates ℝ} (unitary : p.Unitary) {qubit : ℕ}
    (diagonal : ∀ gate, p.get? qubit = some gate → gate.isDiagonal 0 = true) (value : Bool)
    (state : Assignment → ℂ) :
    Proportional (projected qubit value state) (projected qubit value (p.actAt qubit state)) := by
  cases waits : p.get? qubit with
  | none =>
      rw [actAt_of_none waits]
      exact (Turned.refl _).proportional
  | some gate =>
      obtain ⟨left, right⟩ := (unitary qubit gate waits).columns
      obtain ⟨topRight, bottomLeft⟩ := gate.isDiagonal_iff.mp (diagonal gate waits)
      rw [bottomLeft, map_zero, add_zero] at left
      rw [topRight, map_zero, zero_add] at right
      refine ⟨if value then gate.bottomRight.toComplex else gate.topLeft.toComplex, ?_, ?_⟩
      · split
        · exact ne_zero_of_normSq_one right
        · exact ne_zero_of_normSq_one left
      · rw [actAt_of_some waits]
        funext bits
        rw [Pi.smul_apply, projected, projected, Gate.act_diagonal (diagonal gate waits)]
        split
        · next here => rw [here, smul_eq_mul]
        · exact (smul_zero _).symm

namespace Register

variable {reg other left left' : Register ℝ} {qubit : ℕ} {value : Bool}

/-! ## Probabilities -/

def SettledOn (reg : Register ℝ) (qubit : ℕ) : Prop :=
  ∀ gate, reg.pending.get? qubit = some gate → gate.isDiagonal 0 = true

theorem Sound.settledOn (sound : reg.Sound) (qubit : ℕ) :
    (reg.settleUnlessDiagonal qubit).SettledOn qubit := by
  intro gate waits
  rw [← sound.threshold_eq]
  exact isDiagonal_of_settleUnlessDiagonal waits

noncomputable def likelihood (reg : Register ℝ) (qubit : ℕ) (value : Bool) : ℝ :=
  if value then reg.tree.prob qubit else 1 - reg.tree.prob qubit

theorem Physical.mass_projected (physical : reg.Physical) (settled : reg.SettledOn qubit)
    (value : Bool) :
    mass reg.width (projected qubit value reg.state) =
      mass reg.width (projected qubit value reg.tree.state) := by
  have kept := physical.unitary.mass_act (projected qubit value reg.tree.state)
  rw [PendingGates.act_projected settled, physical.slots] at kept
  exact kept

/-- The probability of a value is its part of the squared norm. -/
theorem Physical.likelihood_eq (physical : reg.Physical) (settled : reg.SettledOn qubit)
    (inside : qubit < reg.width) (value : Bool) :
    reg.likelihood qubit value =
      mass reg.width (projected qubit value reg.state) / mass reg.width reg.state := by
  have total := Tree.mass_projected_add reg.width qubit reg.state
  have one : reg.tree.prob qubit =
      mass reg.width (projected qubit true reg.state) / mass reg.width reg.state := by
    rw [physical.mass_projected settled, physical.mass_eq]
    exact physical.tree.prob_eq inside
  unfold likelihood
  cases value with
  | true => exact one
  | false =>
      have nonzero := physical.mass_pos.ne'
      rw [if_neg Bool.false_ne_true, one]
      field_simp
      linear_combination -total

theorem Physical.projected_ne_zero (physical : reg.Physical) (settled : reg.SettledOn qubit)
    (inside : qubit < reg.width) (positive : 0 < reg.likelihood qubit value) :
    projected qubit value reg.state ≠ 0 := by
  intro none
  rw [physical.likelihood_eq settled inside, none, mass_zero, zero_div] at positive
  exact lt_irrefl 0 positive

theorem Alike.prob_eq (alike : Alike reg other) (settled : reg.SettledOn qubit)
    (otherSettled : other.SettledOn qubit) (inside : qubit < reg.width) :
    other.tree.prob qubit = reg.tree.prob qubit := by
  have first := alike.physical.likelihood_eq settled inside true
  have second := alike.otherPhysical.likelihood_eq otherSettled
    (inside.trans_eq alike.width.symm) true
  unfold likelihood at first second
  rw [if_pos rfl] at first second
  rw [first, second, alike.width, alike.turned.mass_eq,
    (alike.turned.map (projected_smul qubit true)).mass_eq]

theorem runOn_prob (inside : qubit < reg.width) :
    (prob qubit).runOn reg = (.ok ((reg.settleUnlessDiagonal qubit).tree.prob qubit),
      reg.settleUnlessDiagonal qubit) := by
  rw [prob, runOn_bind, runOn_check, checkQubit_eq_ok.mpr inside]
  rfl

theorem Alike.prob (alike : Alike reg other) (qubit : ℕ) :
    Agree ((prob qubit).runOn reg) ((prob qubit).runOn other) := by
  by_cases inside : qubit < reg.width
  · have settled := alike.settleUnlessDiagonal qubit
    have within := alike.physical.toSound.settles_settleUnlessDiagonal qubit
    rw [runOn_prob inside, runOn_prob (inside.trans_eq alike.width.symm)]
    refine ⟨congrArg Except.ok ?_, settled⟩
    exact settled.prob_eq (alike.physical.toSound.settledOn qubit)
      (alike.otherPhysical.toSound.settledOn qubit) (inside.trans_eq within.width.symm)
  · rw [Register.prob, runOn_bind, runOn_bind, runOn_check, runOn_check,
      checkQubit_congr alike.width, checkQubit, if_neg inside]
    exact ⟨rfl, alike⟩

/-! ## Outcomes -/

/-- A collapse to a possible value succeeds. -/
theorem Physical.collapse_kept (physical : reg.Physical) (settled : reg.SettledOn qubit)
    (inside : qubit < reg.width) (possible : projected qubit value reg.state ≠ 0) :
    (reg.tree.collapse qubit value).1 = true := by
  by_contra lost
  obtain ⟨-, outcome⟩ := physical.tree.collapse inside value
  rw [if_neg lost] at outcome
  refine possible ?_
  rw [state, ← PendingGates.act_projected settled, outcome.2]
  exact reg.pending.actOn_zero _

/-- A collapse multiplies the part of the state with its value by a factor. -/
theorem Physical.collapsed_proportional (physical : reg.Physical) (settled : reg.SettledOn qubit)
    (inside : qubit < reg.width) (kept : (reg.tree.collapse qubit value).1 = true) :
    Proportional (projected qubit value reg.state) (reg.collapsed qubit value).state := by
  obtain ⟨-, outcome⟩ := physical.tree.collapse inside value
  rw [if_pos kept] at outcome
  obtain ⟨factor, positive, treeState⟩ := outcome
  have divided : (reg.collapsed qubit value).tree.state =
      (factor : ℂ)⁻¹ • projected qubit value reg.tree.state :=
    treeState.trans (funext fun bits => div_eq_inv_mul ..)
  have free : ∀ gate, (reg.pending.erase qubit).get? qubit = some gate →
      gate.isDiagonal 0 = true := by
    intro gate waits
    rw [PendingGates.get?_erase_self] at waits
    cases waits
  -- the dropped gate and the division by the norm are two factors
  obtain ⟨entry, nonzero, turned⟩ := physical.unitary.projected_actAt settled value reg.tree.state
  have before : projected qubit value reg.state =
      entry • (reg.pending.erase qubit).act (projected qubit value reg.tree.state) := by
    rw [state, reg.pending.act_erase qubit, ← PendingGates.act_projected free, turned,
      PendingGates.act_smul]
  have after : (reg.collapsed qubit value).state =
      (factor : ℂ)⁻¹ • (reg.pending.erase qubit).act (projected qubit value reg.tree.state) := by
    rw [state, divided, PendingGates.act_smul]
    rfl
  rw [before, after]
  exact Proportional.trans (Proportional.symm ⟨entry, nonzero, rfl⟩)
    ⟨_, inv_ne_zero (Complex.ofReal_ne_zero.mpr positive.ne'), rfl⟩

theorem Physical.collapsed (physical : reg.Physical) (settled : reg.SettledOn qubit)
    (inside : qubit < reg.width) (possible : projected qubit value reg.state ≠ 0) :
    (reg.collapsed qubit value).Physical ∧ mass reg.width (reg.collapsed qubit value).state = 1 := by
  have kept := physical.collapse_kept settled inside possible
  have retained := physical.toSound.collapsed qubit value
  have left : (reg.collapsed qubit value).Physical :=
    ⟨retained.sound, physical.unitary.erase qubit,
      (physical.collapsed_proportional settled inside kept).ne_zero possible⟩
  refine ⟨left, ?_⟩
  rw [← retained.width, left.mass_eq, retained.width]
  exact physical.tree.mass_collapse kept

theorem Alike.collapseTo (alike : Alike reg other) (settled : reg.SettledOn qubit)
    (otherSettled : other.SettledOn qubit) (inside : qubit < reg.width)
    (possible : projected qubit value reg.state ≠ 0) :
    Agree ((collapseTo qubit value).runOn reg) ((collapseTo qubit value).runOn other) := by
  have inside' : qubit < other.width := inside.trans_eq alike.width.symm
  have parts := alike.turned.map (projected_smul qubit value)
  have otherPossible := parts.proportional.ne_zero possible
  have kept := alike.physical.collapse_kept settled inside possible
  have kept' := alike.otherPhysical.collapse_kept otherSettled inside' otherPossible
  obtain ⟨physical, one⟩ := alike.physical.collapsed settled inside possible
  obtain ⟨physical', one'⟩ := alike.otherPhysical.collapsed otherSettled inside' otherPossible
  rw [alike.width] at one'
  have turned : Turned (reg.collapsed qubit value).state (other.collapsed qubit value).state :=
    parts.scaled (alike.physical.collapsed_proportional settled inside kept)
      (alike.otherPhysical.collapsed_proportional otherSettled inside' kept') one one'
  have left : Alike (reg.collapsed qubit value) (other.collapsed qubit value) :=
    alike.retain (alike.physical.toSound.collapsed qubit value)
      (alike.otherPhysical.toSound.collapsed qubit value) physical physical' alike.generator turned
  rw [runOn_collapseTo, runOn_collapseTo, kept, kept']
  exact ⟨rfl, left.afterChange⟩

noncomputable def afterChoice (reg : Register ℝ) (forced : Option Bool) : Register ℝ :=
  match forced with
  | some _ => reg
  | none => { reg with generator := (reg.generator.unit : ℝ × Generator).2 }

noncomputable def choice (reg : Register ℝ) (forced : Option Bool) (one : ℝ) : Bool :=
  forced.getD (Scalar.lt (reg.generator.unit : ℝ × Generator).1 one)

theorem runOn_chooseOutcome (reg : Register ℝ) (forced : Option Bool) (one : ℝ) :
    (chooseOutcome forced one).runOn reg = (.ok (reg.choice forced one), reg.afterChoice forced) := by
  cases forced <;> rfl

/-- An imposed outcome whose probability does not exceed the threshold fails, a drawn one gives way
to the other one. -/
theorem runOn_measureQubit_at (inside : qubit < reg.width) (forced : Option Bool) (collapse : Bool) :
    let settled := reg.settleUnlessDiagonal qubit
    let chosen := settled.choice forced (settled.tree.prob qubit)
    let impossible := Scalar.le (settled.likelihood qubit chosen) settled.threshold
    let outcome := if impossible then !chosen else chosen
    (measureQubit qubit forced collapse).runOn reg =
      if impossible && forced.isSome then
        (.error (.impossibleOutcome qubit), settled.afterChoice forced)
      else if !collapse then (.ok outcome, settled.afterChoice forced)
      else (collapseTo qubit outcome).runOn (settled.afterChoice forced) := by
  intro settled chosen impossible outcome
  rw [measureQubit, runOn_bind, runOn_check, checkQubit_eq_ok.mpr inside]
  dsimp only
  rw [runOn_bind, runOn_modify]
  dsimp only
  rw [runOn_bind, runOn_get]
  dsimp only
  rw [runOn_bind, runOn_chooseOutcome]
  dsimp only
  change (if (impossible && forced.isSome) = true then _ else _ : Action ℝ Bool).runOn _ = _
  split
  · rfl
  · split <;> rfl

/-- With exact arithmetic an outcome without probability is one of probability zero. -/
theorem runOn_measureQubit (sound : reg.Sound) (inside : qubit < reg.width) (forced : Option Bool)
    (collapse : Bool) :
    let settled := reg.settleUnlessDiagonal qubit
    let chosen := settled.choice forced (settled.tree.prob qubit)
    let impossible := Scalar.le (settled.likelihood qubit chosen) 0
    let outcome := if impossible then !chosen else chosen
    (measureQubit qubit forced collapse).runOn reg =
      if impossible && forced.isSome then
        (.error (.impossibleOutcome qubit), settled.afterChoice forced)
      else if !collapse then (.ok outcome, settled.afterChoice forced)
      else (collapseTo qubit outcome).runOn (settled.afterChoice forced) := by
  have exact : (reg.settleUnlessDiagonal qubit).threshold = 0 :=
    (sound.settles_settleUnlessDiagonal qubit).threshold_eq.trans sound.threshold_eq
  have run := runOn_measureQubit_at inside forced collapse
  dsimp only at run ⊢
  rwa [exact] at run

theorem Alike.afterChoice (alike : Alike reg other) (forced : Option Bool) :
    Alike (reg.afterChoice forced) (other.afterChoice forced) := by
  cases forced with
  | some _ => exact alike
  | none =>
      exact alike.settles (alike.physical.toSound.withGenerator _)
        (alike.otherPhysical.toSound.withGenerator _)
        (congrArg (fun generator => (generator.unit : ℝ × Generator).2) alike.generator)

/-- The outcome of a measurement has some amplitude. -/
theorem Physical.outcome_possible (physical : reg.Physical) (settled : reg.SettledOn qubit)
    (inside : qubit < reg.width) (chosen : Bool) :
    projected qubit (if Scalar.le (reg.likelihood qubit chosen) 0 then !chosen else chosen)
      reg.state ≠ 0 := by
  apply physical.projected_ne_zero settled inside
  split
  · next impossible =>
      have none := (Scalar.le_iff _ _).mp impossible
      cases chosen with
      | true =>
          have none : reg.tree.prob qubit ≤ 0 := none
          exact show 0 < 1 - reg.tree.prob qubit by linarith
      | false =>
          have none : 1 - reg.tree.prob qubit ≤ 0 := none
          exact show 0 < reg.tree.prob qubit by linarith
  · next possible => exact not_le.mp ((Scalar.le_iff _ _).not.mp possible)

/-- Measurements of a qubit of alike registers agree, whether the outcome is drawn or imposed. -/
theorem Alike.measureQubit (alike : Alike reg other) (qubit : ℕ) (forced : Option Bool)
    (collapse : Bool) :
    Agree ((measureQubit qubit forced collapse).runOn reg)
      ((measureQubit qubit forced collapse).runOn other) := by
  by_cases inside : qubit < reg.width
  · have settled := alike.settleUnlessDiagonal qubit
    have below : qubit < (reg.settleUnlessDiagonal qubit).width :=
      inside.trans_eq (alike.physical.toSound.settles_settleUnlessDiagonal qubit).width.symm
    have free := alike.physical.toSound.settledOn qubit
    have otherFree := alike.otherPhysical.toSound.settledOn qubit
    rw [runOn_measureQubit alike.physical.toSound inside,
      runOn_measureQubit alike.otherPhysical.toSound (inside.trans_eq alike.width.symm)]
    generalize reg.settleUnlessDiagonal qubit = first at *
    generalize other.settleUnlessDiagonal qubit = second at *
    have one := settled.prob_eq free otherFree below
    have chosen : second.choice forced (second.tree.prob qubit) =
        first.choice forced (first.tree.prob qubit) := by
      rw [choice, choice, settled.generator, one]
    have likelihoods (value : Bool) : second.likelihood qubit value = first.likelihood qubit value := by
      rw [likelihood, likelihood, one]
    have drawn := settled.afterChoice forced
    rw [chosen, likelihoods]
    split
    · exact ⟨rfl, drawn⟩
    · split
      · exact ⟨rfl, drawn⟩
      · have possible := settled.physical.outcome_possible free below
          (first.choice forced (first.tree.prob qubit))
        cases forced <;> exact drawn.collapseTo free otherFree below possible
  · rw [Register.measureQubit, runOn_bind, runOn_bind, runOn_check, runOn_check,
      checkQubit_congr alike.width, checkQubit, if_neg inside]
    exact ⟨rfl, alike⟩

/-! ## Basis states -/

noncomputable def reset (reg : Register ℝ) (index : BasisIndex) (phase : Amplitude ℝ) :
    Register ℝ :=
  { reg with
    pending := reg.pending.clear
    tree := .basis reg.width index phase reg.threshold }

theorem runOn_setBasis (reg : Register ℝ) (index : BasisIndex) (phase : Amplitude ℝ) :
    (setBasis index phase).runOn reg =
      match reg.checkIndex index with
      | .ok _ => (.ok (), reg.reset index phase)
      | .error e => (.error e, reg) := by
  rw [setBasis, runOn_bind, runOn_check]
  cases reg.checkIndex index <;> rfl

theorem Sound.reset_state (sound : reg.Sound) (index : BasisIndex) (phase : Amplitude ℝ) :
    (reg.reset index phase).state = phase.toComplex • Tree.basisState index 0 reg.width 1 := by
  rw [state, show (reg.reset index phase).pending = reg.pending.clear from rfl,
    PendingGates.act_clear, reset, sound.threshold_eq, (Tree.sound_basis reg.width index phase).2]
  rfl

theorem Physical.reset (physical : reg.Physical) (index : BasisIndex) {phase : Amplitude ℝ}
    (nonzero : phase.toComplex ≠ 0) : (reg.reset index phase).Physical where
  toSound := (physical.toSound.basis index phase).sound
  unitary := reg.pending.unitary_clear
  state_ne_zero := by
    rw [physical.toSound.reset_state]
    intro none
    have here := congrFun none index.testBit
    rw [Pi.smul_apply, Tree.basisState, if_pos fun _ _ _ => rfl, smul_eq_mul, mul_one] at here
    exact nonzero here

theorem Alike.setBasis (alike : Alike reg other) (index : BasisIndex) {phase phase' : Amplitude ℝ}
    (nonzero : phase.toComplex ≠ 0)
    (turned : ∃ u : ℂ, Complex.normSq u = 1 ∧ phase'.toComplex = u * phase.toComplex) :
    Agree ((setBasis index phase).runOn reg) ((setBasis index phase').runOn other) := by
  obtain ⟨u, unit, rotated⟩ := turned
  have same : other.checkIndex index = reg.checkIndex index := by
    rw [checkIndex, checkIndex, alike.width]
  have nonzero' : phase'.toComplex ≠ 0 := by
    rw [rotated]
    exact mul_ne_zero (ne_zero_of_normSq_one unit) nonzero
  rw [runOn_setBasis, runOn_setBasis, same]
  cases reg.checkIndex index with
  | error e => exact ⟨rfl, alike⟩
  | ok _ =>
      refine ⟨rfl, alike.retain (alike.physical.toSound.basis index phase)
        (alike.otherPhysical.toSound.basis index phase') (alike.physical.reset index nonzero)
        (alike.otherPhysical.reset index nonzero') alike.generator ⟨u, unit, ?_⟩⟩
      rw [alike.physical.toSound.reset_state, alike.otherPhysical.toSound.reset_state, rotated,
        alike.width, mul_smul]

noncomputable def phaseOf (a : Amplitude ℝ) : Amplitude ℝ :=
  if Scalar.lt 0 a.norm then a.dividedBy a.norm else 1

theorem phaseOf_of_ne_zero {a : Amplitude ℝ} (nonzero : a.toComplex ≠ 0) :
    (phaseOf a).toComplex = a.toComplex / (‖a.toComplex‖ : ℂ) := by
  have positive : Scalar.lt 0 a.norm = true := by
    rw [Scalar.lt_iff, Amplitude.norm_eq]
    exact norm_pos_iff.mpr nonzero
  rw [phaseOf, if_pos positive, Amplitude.toComplex_dividedBy, Amplitude.norm_eq]

theorem phaseOf_of_eq_zero {a : Amplitude ℝ} (zero : a.toComplex = 0) : phaseOf a = 1 := by
  have none : ¬Scalar.lt 0 a.norm = true := by
    rw [Scalar.lt_iff, Amplitude.norm_eq, zero, norm_zero]
    exact lt_irrefl 0
  exact if_neg none

theorem normSq_phaseOf (a : Amplitude ℝ) : Complex.normSq (phaseOf a).toComplex = 1 := by
  by_cases zero : a.toComplex = 0
  · rw [phaseOf_of_eq_zero zero, Amplitude.toComplex_one, map_one]
  · have positive : (0 : ℝ) < ‖a.toComplex‖ := norm_pos_iff.mpr zero
    rw [phaseOf_of_ne_zero zero, map_div₀, Complex.normSq_ofReal, Complex.normSq_eq_norm_sq]
    field_simp

theorem phaseOf_ne_zero (a : Amplitude ℝ) : (phaseOf a).toComplex ≠ 0 :=
  ne_zero_of_normSq_one (normSq_phaseOf a)

theorem phaseOf_turned {a a' : Amplitude ℝ} {u : ℂ} (unit : Complex.normSq u = 1)
    (turned : a'.toComplex = u * a.toComplex) :
    ∃ u' : ℂ, Complex.normSq u' = 1 ∧ (phaseOf a').toComplex = u' * (phaseOf a).toComplex := by
  by_cases zero : a.toComplex = 0
  · rw [zero, mul_zero] at turned
    exact ⟨1, map_one _, by rw [phaseOf_of_eq_zero zero, phaseOf_of_eq_zero turned, one_mul]⟩
  · have nonzero : a'.toComplex ≠ 0 := by
      rw [turned]
      exact mul_ne_zero (ne_zero_of_normSq_one unit) zero
    have norm : ‖u‖ = 1 := by rw [Complex.norm_def, unit, Real.sqrt_one]
    refine ⟨u, unit, ?_⟩
    rw [phaseOf_of_ne_zero zero, phaseOf_of_ne_zero nonzero, turned, norm_mul, norm, one_mul,
      mul_div_assoc]

theorem Physical.runOn_measureAll (physical : reg.Physical) :
    let settled := reg.settleAll
    let drawn := settled.tree.sample Generator.unit settled.generator
    measureAll.runOn reg =
      ((setBasis drawn.1 (phaseOf (settled.tree.amplitude drawn.1))).runOn
        { settled with generator := drawn.2 }).map (·.map fun _ => drawn.1) id := by
  intro settled drawn
  have left := physical.settles physical.toSound.settles_settleAll
  have positive : Scalar.le settled.tree.normSq settled.threshold = false := by
    rw [left.toSound.threshold_eq, ← Bool.not_eq_true, Scalar.le_iff, not_le]
    exact left.tree.normSq_pos_iff.mpr left.nonzero
  rw [measureAll, sampleIndex, runOn_bind, runOn_modify]
  dsimp only
  rw [runOn_bind, runOn_get]
  dsimp only
  rw [show Scalar.le reg.settleAll.tree.normSq reg.settleAll.threshold = false from positive,
    if_neg Bool.false_ne_true]
  exact runOn_bind_pure _ _ _

theorem Alike.measureAll (alike : Alike reg other) :
    Agree (measureAll.runOn reg) (measureAll.runOn other) := by
  have settled : Alike reg.settleAll other.settleAll :=
    alike.settles alike.physical.toSound.settles_settleAll
      alike.otherPhysical.toSound.settles_settleAll (by simp [alike.generator])
  obtain ⟨phase, unit, turned⟩ := alike.turned
  have states : other.settleAll.tree.state = phase • reg.settleAll.tree.state := by
    rw [alike.otherPhysical.toSound.settleAll_state, alike.physical.toSound.settleAll_state, turned]
  rw [alike.physical.runOn_measureAll, alike.otherPhysical.runOn_measureAll]
  have draws := settled.physical.tree.sample_eq settled.otherPhysical.tree settled.width
    (ne_zero_of_normSq_one unit) states Generator.unit reg.settleAll.generator
  rw [settled.generator, draws]
  generalize reg.settleAll.tree.sample Generator.unit reg.settleAll.generator = drawn
  have amplitudes : (other.settleAll.tree.amplitude drawn.1).toComplex =
      phase * (reg.settleAll.tree.amplitude drawn.1).toComplex := by
    rw [settled.otherPhysical.tree.toComplex_amplitude, settled.physical.tree.toComplex_amplitude,
      states]
    rfl
  have started : Alike { reg.settleAll with generator := drawn.2 }
      { other.settleAll with generator := drawn.2 } :=
    settled.settles (settled.physical.toSound.withGenerator _)
      (settled.otherPhysical.toSound.withGenerator _) rfl
  obtain ⟨answer, left⟩ :=
    started.setBasis drawn.1 (phaseOf_ne_zero _) (phaseOf_turned unit amplitudes)
  exact ⟨congrArg (Except.map fun _ => drawn.1) answer, left⟩

end Register

end AmplitudeTree
