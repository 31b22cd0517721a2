import AmplitudeTree.Proofs.PendingGates.Split
import AmplitudeTree.Proofs.Register.Gates
import AmplitudeTree.Proofs.Tree.Probability

/-!
# Registers that differ by a global phase

Two registers are alike if they have one width, one generator and the same settings, and their
states differ by a global phase.  It does not matter which of their gates still wait.  Settling
gates leaves alike registers alike, and so does a unitary gate on both of them.
-/

namespace AmplitudeTree

/-! ## States that differ by a factor -/

def Proportional (state other : Assignment → ℂ) : Prop :=
  ∃ factor : ℂ, factor ≠ 0 ∧ other = factor • state

/-- The second state is the first one up to a global phase. -/
def Turned (state other : Assignment → ℂ) : Prop :=
  ∃ phase : ℂ, Complex.normSq phase = 1 ∧ other = phase • state

section Factors

variable {state other last : Assignment → ℂ}

theorem Proportional.symm (proportional : Proportional state other) : Proportional other state := by
  obtain ⟨factor, nonzero, rfl⟩ := proportional
  exact ⟨factor⁻¹, inv_ne_zero nonzero, (inv_smul_smul₀ nonzero state).symm⟩

theorem Proportional.trans (first : Proportional state other) (second : Proportional other last) :
    Proportional state last := by
  obtain ⟨factor, nonzero, rfl⟩ := first
  obtain ⟨factor', nonzero', rfl⟩ := second
  exact ⟨factor' * factor, mul_ne_zero nonzero' nonzero, smul_smul ..⟩

theorem Proportional.ne_zero (proportional : Proportional state other) (some : state ≠ 0) :
    other ≠ 0 := by
  obtain ⟨factor, nonzero, rfl⟩ := proportional
  exact smul_ne_zero nonzero some

theorem ne_zero_of_normSq_one {phase : ℂ} (unit : Complex.normSq phase = 1) : phase ≠ 0 := by
  rintro rfl
  rw [map_zero] at unit
  exact zero_ne_one unit

theorem Turned.refl (state : Assignment → ℂ) : Turned state state :=
  ⟨1, map_one _, (one_smul ℂ state).symm⟩

theorem Turned.symm (turned : Turned state other) : Turned other state := by
  obtain ⟨phase, unit, rfl⟩ := turned
  exact ⟨phase⁻¹, by rw [map_inv₀, unit, inv_one],
    (inv_smul_smul₀ (ne_zero_of_normSq_one unit) state).symm⟩

theorem Turned.proportional (turned : Turned state other) : Proportional state other := by
  obtain ⟨phase, unit, turned⟩ := turned
  exact ⟨phase, ne_zero_of_normSq_one unit, turned⟩

theorem Turned.mass_eq (turned : Turned state other) (width : ℕ) :
    mass width other = mass width state := by
  obtain ⟨phase, unit, rfl⟩ := turned
  rw [mass_smul, unit, one_mul]

/-- Proportional states of one norm differ by a phase. -/
theorem Proportional.turned (proportional : Proportional state other) {width : ℕ}
    (masses : mass width other = mass width state) (nonzero : mass width state ≠ 0) :
    Turned state other := by
  obtain ⟨factor, _, rfl⟩ := proportional
  rw [mass_smul] at masses
  exact ⟨factor, mul_right_cancel₀ nonzero (masses.trans (one_mul _).symm), rfl⟩

theorem Turned.scaled {state' other' : Assignment → ℂ} (turned : Turned state other)
    (first : Proportional state state') (second : Proportional other other') {width : ℕ}
    (one : mass width state' = 1) (one' : mass width other' = 1) : Turned state' other' :=
  (first.symm.trans (turned.proportional.trans second)).turned (one'.trans one.symm)
    (one.trans_ne one_ne_zero)

theorem Turned.map (turned : Turned state other) {f : (Assignment → ℂ) → Assignment → ℂ}
    (linear : ∀ (c : ℂ) state, f (c • state) = c • f state) : Turned (f state) (f other) := by
  obtain ⟨phase, unit, rfl⟩ := turned
  exact ⟨phase, unit, linear phase state⟩

end Factors

namespace Register

open AmplitudeTree.Action

variable {reg other left left' : Register ℝ}

/-! ## Generators -/

section Generators

theorem generator_foldl {R ι : Type} {step : Register R → ι → Register R}
    (keeps : ∀ reg i, (step reg i).generator = reg.generator) (items : List ι) (reg : Register R) :
    (items.foldl step reg).generator = reg.generator := by
  induction items generalizing reg with
  | nil => rfl
  | cons item items ih => rw [List.foldl_cons, ih, keeps]

variable {R : Type} [Scalar R]

@[simp]
theorem generator_settle (reg : Register R) (qubit : ℕ) :
    (reg.settle qubit).generator = reg.generator := by
  unfold settle
  split <;> rfl

@[simp]
theorem generator_settleUnlessDiagonal (reg : Register R) (qubit : ℕ) :
    (reg.settleUnlessDiagonal qubit).generator = reg.generator := by
  unfold settleUnlessDiagonal
  split
  · rfl
  · split
    · rfl
    · exact reg.generator_settle qubit

@[simp]
theorem generator_afterChange (reg : Register R) : reg.afterChange.generator = reg.generator := rfl

@[simp]
theorem generator_settleAll (reg : Register R) : reg.settleAll.generator = reg.generator := by
  unfold settleAll
  split
  · rw [generator_afterChange, generator_foldl generator_settle]
  · rfl

end Generators

@[simp]
theorem generator_settledFor (reg : Register ℝ) (gate : Gate ℝ) (sorted : List Control)
    (target : ℕ) : (reg.settledFor gate sorted target).generator = reg.generator := by
  have controls := generator_foldl (fun reg (control : Control) =>
    generator_settleUnlessDiagonal reg control.qubit) sorted reg
  unfold settledFor
  dsimp only
  split
  · rw [generator_settleUnlessDiagonal, controls]
  · rw [generator_settle, controls]

/-! ## Registers with some amplitude -/

/-- A sound register with some amplitude on which only unitary gates wait. -/
structure Physical (reg : Register ℝ) : Prop extends reg.Sound where
  unitary : reg.pending.Unitary
  state_ne_zero : reg.state ≠ 0

theorem Sound.isZero_eq_false_iff (sound : reg.Sound) :
    reg.tree.store.isZero reg.tree.root = false ↔ reg.tree.state ≠ 0 := by
  rw [← NodeStore.unfold_ne_zero]
  constructor
  · intro nonzero none
    obtain ⟨bits, found⟩ := sound.tree.regular.exists_amplitude_ne_zero nonzero 0
    exact found (congrFun none bits)
  · intro some none
    exact some (funext fun bits => by
      rw [Tree.state, show reg.tree.unfold = .zero from none]
      rfl)

/-- A sound register is physical if its tree has some amplitude and only unitary gates wait. -/
theorem Sound.physical (sound : reg.Sound) (unitary : reg.pending.Unitary)
    (nonzero : reg.tree.store.isZero reg.tree.root = false) : reg.Physical where
  toSound := sound
  unitary := unitary
  state_ne_zero := unitary.act_ne_zero_iff.mpr (sound.isZero_eq_false_iff.mp nonzero)

theorem Physical.nonzero (physical : reg.Physical) :
    reg.tree.store.isZero reg.tree.root = false :=
  physical.toSound.isZero_eq_false_iff.mpr (physical.unitary.act_ne_zero_iff.mp physical.state_ne_zero)

theorem Physical.settles (physical : reg.Physical) (settles : Settles reg left) : left.Physical where
  toSound := settles.sound
  unitary := settles.unitary physical.unitary
  state_ne_zero := by
    rw [settles.state]
    exact physical.state_ne_zero

theorem Physical.withGenerator (physical : reg.Physical) (generator : Generator) :
    Physical { reg with generator := generator } :=
  physical.settles (physical.toSound.withGenerator generator)

/-- The waiting gates keep the norm of the tree. -/
theorem Physical.mass_eq (physical : reg.Physical) :
    mass reg.width reg.state = mass reg.width reg.tree.state := by
  have kept := physical.unitary.mass_act reg.tree.state
  rw [physical.slots] at kept
  exact kept

theorem Physical.mass_pos (physical : reg.Physical) : 0 < mass reg.width reg.state := by
  rw [physical.mass_eq, show mass reg.width reg.tree.state = _ from physical.tree.mass_state]
  exact Complex.normSq_pos.mpr
    (physical.tree.regular.scale_ne_zero (NodeStore.unfold_ne_zero.mpr physical.nonzero))

/-! ## Alike registers -/

/-- Physical registers with one width, generator and settings whose states differ by a phase. -/
structure Alike (reg other : Register ℝ) : Prop where
  physical : reg.Physical
  otherPhysical : other.Physical
  width : other.width = reg.width
  config : other.config = reg.config
  generator : other.generator = reg.generator
  turned : Turned reg.state other.state

theorem Physical.alike (physical : reg.Physical) : Alike reg reg :=
  ⟨physical, physical, rfl, rfl, rfl, .refl _⟩

theorem Alike.retain (alike : Alike reg other) (first : Retains reg left)
    (second : Retains other left') (physical : left.Physical) (otherPhysical : left'.Physical)
    (generator : left'.generator = left.generator) (turned : Turned left.state left'.state) :
    Alike left left' where
  physical := physical
  otherPhysical := otherPhysical
  width := second.width.trans (alike.width.trans first.width.symm)
  config := second.config.trans (alike.config.trans first.config.symm)
  generator := generator
  turned := turned

theorem Alike.settles (alike : Alike reg other) (first : Settles reg left)
    (second : Settles other left') (generator : left'.generator = left.generator) :
    Alike left left' :=
  alike.retain first.toRetains second.toRetains (alike.physical.settles first)
    (alike.otherPhysical.settles second) generator (by
      rw [first.state, second.state]
      exact alike.turned)

/-- All gates of one of two alike registers may be settled. -/
theorem Alike.settleAll (alike : Alike reg other) : Alike reg other.settleAll :=
  alike.settles alike.physical.toSound.settles_refl alike.otherPhysical.toSound.settles_settleAll
    ((generator_settleAll other).trans alike.generator)

theorem Alike.settleUnlessDiagonal (alike : Alike reg other) (qubit : ℕ) :
    Alike (reg.settleUnlessDiagonal qubit) (other.settleUnlessDiagonal qubit) :=
  alike.settles (alike.physical.toSound.settles_settleUnlessDiagonal qubit)
    (alike.otherPhysical.toSound.settles_settleUnlessDiagonal qubit) (by simp [alike.generator])

theorem Alike.afterChange (alike : Alike reg other) : Alike reg.afterChange other.afterChange :=
  alike.settles alike.physical.toSound.settles_afterChange
    alike.otherPhysical.toSound.settles_afterChange alike.generator

theorem Alike.represented (alike : Alike reg other) :
    ∃ phase : Amplitude ℝ, phase.normSq = 1 ∧
      ∀ index, other.represented index = phase * reg.represented index := by
  obtain ⟨phase, unit, turned⟩ := alike.turned
  refine ⟨.ofComplex phase, ?_, fun index => Amplitude.toComplex_injective ?_⟩
  · rw [Amplitude.normSq_eq, Amplitude.toComplex_ofComplex, unit]
  · rw [Amplitude.toComplex_mul, Amplitude.toComplex_ofComplex,
      alike.otherPhysical.toSound.toComplex_represented,
      alike.physical.toSound.toComplex_represented, turned]
    rfl

/-- Two runs that return the same, or fail for the same reason, and leave alike registers. -/
structure Agree {α : Type} (run run' : Except (RegisterError ℝ) α × Register ℝ) : Prop where
  answer : run'.1 = run.1
  alike : Alike run.2 run'.2

/-! ## Gates -/

theorem checkQubit_congr (widths : other.width = reg.width) (qubit : ℕ) :
    other.checkQubit qubit = reg.checkQubit qubit := by
  rw [checkQubit, checkQubit, widths]

theorem checkControls_congr (widths : other.width = reg.width) (target : ℕ) (controls : List ℕ) :
    other.checkControls target controls = reg.checkControls target controls := by
  induction controls with
  | nil => rfl
  | cons control controls ih =>
      rw [checkControls, checkControls, checkQubit_congr widths, ih]

theorem checkGate_congr (widths : other.width = reg.width) (controls : List ℕ) (value : Bool)
    (target : ℕ) : other.checkGate controls value target = reg.checkGate controls value target := by
  rw [checkGate, checkGate, checkQubit_congr widths, checkControls_congr widths]

theorem Alike.acts (alike : Alike reg other) {gate : Gate ℝ} (unitary : gate.IsUnitary)
    {controls : List Control} {target : ℕ} (outside : ∀ control ∈ controls, control.qubit ≠ target)
    (first : Acts reg controls gate target left) (second : Acts other controls gate target left')
    (generator : left'.generator = left.generator) : Alike left left' where
  physical := ⟨first.sound, first.unitary alike.physical.unitary, by
    rw [first.state]
    exact unitary.actWhere_ne_zero outside alike.physical.state_ne_zero⟩
  otherPhysical := ⟨second.sound, second.unitary alike.otherPhysical.unitary, by
    rw [second.state]
    exact unitary.actWhere_ne_zero outside alike.otherPhysical.state_ne_zero⟩
  width := second.width.trans (alike.width.trans first.width.symm)
  config := second.config.trans (alike.config.trans first.config.symm)
  generator := generator
  turned := by
    rw [first.state, second.state]
    exact alike.turned.map (gate.actWhere_smul controls target)

theorem Physical.acts_waiting (physical : reg.Physical) {gate : Gate ℝ} (unitary : gate.IsUnitary)
    {target : ℕ} (inside : target < reg.width) :
    Acts reg [] gate target (reg.waiting gate target) := by
  obtain ⟨stays, acts⟩ := physical.toSound.waiting_state physical.unitary unitary inside
  exact ⟨physical.toSound.waiting gate target, rfl, rfl, fun _ => stays, acts⟩

theorem Alike.applyWhere (alike : Alike reg other) {gate : Gate ℝ} (unitary : gate.IsUnitary)
    (controls : List ℕ) (value : Bool) (target : ℕ) :
    Agree ((applyWhere controls value gate target).runOn reg)
      ((applyWhere controls value gate target).runOn other) := by
  rw [runOn_applyWhere, runOn_applyWhere]
  split
  · rw [runOn_apply, runOn_apply, alike.width]
    split
    · next inside =>
        have free : ∀ control ∈ ([] : List Control), control.qubit ≠ target := nofun
        exact ⟨rfl, alike.acts unitary free (alike.physical.acts_waiting unitary inside)
          (alike.otherPhysical.acts_waiting unitary (inside.trans_eq alike.width.symm))
          alike.generator⟩
    · exact ⟨rfl, alike⟩
  · rw [checkGate_congr alike.width]
    cases passes : reg.checkGate controls value target with
    | error e => exact ⟨rfl, alike⟩
    | ok sorted =>
        have accepted := accepted_of_checkGate passes
        have otherAccepted := accepted_of_checkGate ((checkGate_congr alike.width ..).trans passes)
        refine ⟨rfl, alike.acts unitary ?_ (alike.physical.toSound.acts_applied accepted)
          (alike.otherPhysical.toSound.acts_applied otherAccepted) ?_⟩
        · intro control member
          obtain ⟨qubit, inside, rfl⟩ := List.mem_map.mp member
          exact (accepted.inside qubit inside).2
        · change (other.settledFor gate sorted target).generator =
            (reg.settledFor gate sorted target).generator
          rw [generator_settledFor, generator_settledFor, alike.generator]

end Register

end AmplitudeTree
