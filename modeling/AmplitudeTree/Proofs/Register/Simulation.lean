import AmplitudeTree.Proofs.Register.Gates
import AmplitudeTree.Proofs.StateVector

/-!
# Registers simulate state vectors

A register and a state vector that start in one basis state and take the same unitary gates list the
same amplitudes.  The register may hold gates back, reorder them, make products of them exact and
share subtrees: none of it shows.
-/

namespace AmplitudeTree

open Register

inductive GateCall where
  | single (gate : Gate ℝ) (target : ℕ)
  | controlled (controls : List ℕ) (gate : Gate ℝ) (target : ℕ)
  | antiControlled (controls : List ℕ) (gate : Gate ℝ) (target : ℕ)
  | phase (controls : List ℕ) (topLeft bottomRight : Amplitude ℝ) (target : ℕ)
  | invert (controls : List ℕ) (topRight bottomLeft : Amplitude ℝ) (target : ℕ)

namespace GateCall

noncomputable def matrix : GateCall → Gate ℝ
  | single gate _ | controlled _ gate _ | antiControlled _ gate _ => gate
  | phase _ topLeft bottomRight _ => .diagonal topLeft bottomRight
  | invert _ topRight bottomLeft _ => .antidiagonal topRight bottomLeft

def controls : GateCall → List ℕ
  | single _ _ => []
  | controlled controls _ _ | antiControlled controls _ _ | phase controls _ _ _
  | invert controls _ _ _ => controls

def value : GateCall → Bool
  | antiControlled _ _ _ => false
  | _ => true

def target : GateCall → ℕ
  | single _ target | controlled _ _ target | antiControlled _ _ target | phase _ _ _ target
  | invert _ _ _ target => target

noncomputable def run : GateCall → Action ℝ Unit
  | single gate target => apply gate target
  | controlled controls gate target => applyControlled controls gate target
  | antiControlled controls gate target => applyAntiControlled controls gate target
  | phase controls topLeft bottomRight target =>
      applyControlled controls (.diagonal topLeft bottomRight) target
  | invert controls topRight bottomLeft target =>
      applyControlled controls (.antidiagonal topRight bottomLeft) target

noncomputable def onVector (call : GateCall) (v : StateVector ℝ) :
    Except VectorError (StateVector ℝ) :=
  v.applyControlled call.matrix call.controls (!call.value) call.target

theorem run_eq (call : GateCall) :
    call.run = applyWhere call.controls call.value call.matrix call.target := by
  cases call <;> rfl

end GateCall

namespace Register

open AmplitudeTree.Action

variable {reg left : Register ℝ} {v : StateVector ℝ} {width : ℕ} {index : BasisIndex}
  {config : Config ℝ}

/-! ## Runs -/

/-- The register and the state vector stand for one state. -/
structure Simulates (reg : Register ℝ) (v : StateVector ℝ) : Prop where
  sound : reg.Sound
  unitary : reg.pending.Unitary
  represents : v.Represents reg.width reg.state

theorem Simulates.step (simulates : reg.Simulates v) {call : GateCall}
    (unitary : call.matrix.IsUnitary) (accepted : call.run.runOn reg = (.ok (), left)) :
    left.width = reg.width ∧ ∃ v', call.onVector v = .ok v' ∧ left.Simulates v' := by
  rw [call.run_eq] at accepted
  obtain ⟨acts, below, inside⟩ :=
    simulates.sound.acts_applyWhere unitary (fun _ => simulates.unitary _) accepted
  obtain ⟨v', applied, represents⟩ :=
    simulates.represents.applyControlled call.matrix (!call.value) below inside
  rw [Bool.not_not, ← acts.state, ← acts.width] at represents
  exact ⟨acts.width, v', applied, acts.sound, acts.unitary simulates.unitary, represents⟩

theorem Simulates.run (simulates : reg.Simulates v) {calls : List GateCall}
    (unitary : ∀ call ∈ calls, call.matrix.IsUnitary)
    (accepted : (forM calls GateCall.run).runOn reg = (.ok (), left)) :
    left.width = reg.width ∧
      ∃ v', calls.foldlM (fun v call => call.onVector v) v = .ok v' ∧ left.Simulates v' := by
  induction calls generalizing reg v with
  | nil =>
      cases accepted
      exact ⟨rfl, v, rfl, simulates⟩
  | cons call calls ih =>
      obtain ⟨here, later⟩ := List.forall_mem_cons.mp unitary
      rw [List.forM_cons, runOn_bind] at accepted
      cases first : call.run.runOn reg with
      | mk result middle =>
          rw [first] at accepted
          cases result with
          | error e => cases accepted
          | ok _ =>
              obtain ⟨width, v₁, stepped, simulates⟩ := simulates.step here first
              obtain ⟨widths, v', ran, simulates⟩ := ih simulates later accepted
              refine ⟨widths.trans width, v', ?_, simulates⟩
              rw [List.foldlM_cons, stepped]
              exact ran

/-- Reading an amplitude settles the waiting gates. -/
theorem runOn_amplitude (bound : index < 2 ^ reg.width) :
    (amplitude index).runOn reg = (.ok (reg.represented index), reg.settleAll) := by
  rw [amplitude, runOn_bind, runOn_check, checkIndex, BasisIndex.check_eq_ok.mpr fun _ => bound]
  rfl

theorem Simulates.amplitude_eq (simulates : reg.Simulates v) (bound : index < 2 ^ reg.width) :
    v.amplitude index = .ok (reg.represented index) := by
  have stored : index < v.amplitudes.size := bound.trans_eq simulates.represents.size.symm
  have read := simulates.represents.amplitudes index bound
  rw [StateVector.amplitudeD, ← simulates.sound.toComplex_represented] at read
  have same := Amplitude.toComplex_injective read
  rw [StateVector.amplitude]
  rw [Array.getElem?_eq_getElem stored] at same ⊢
  exact congrArg Except.ok same

/-- After any accepted unitary gates each amplitude that is read is that of a state vector given the
same gates. -/
theorem amplitude_eq_of_gates {entropy : UInt64} (exact : config.separability = 0)
    (made : create width index config entropy = .ok reg) (dense : width ≤ config.denseLimit)
    {calls : List GateCall} (unitary : ∀ call ∈ calls, call.matrix.IsUnitary)
    (accepted : (forM calls GateCall.run).runOn reg = (.ok (), left)) (seed : UInt64)
    (capabilities : Capabilities) :
    ∃ started v,
      StateVector.createBasis width config.denseLimit seed capabilities index = .ok started ∧
      calls.foldlM (fun v call => call.onVector v) started = .ok v ∧
      ∀ i < 2 ^ width, ∃ a,
        ((amplitude i).runOn left).1 = .ok a ∧ v.amplitude i = .ok a := by
  obtain ⟨sound, waiting, widths, state⟩ := sound_of_create made exact
  obtain ⟨valid, addressed, -⟩ := eq_of_create made
  have word : width < BasisIndex.wordBits := dense.trans_lt (denseLimit_lt valid)
  have bound := BasisIndex.check_eq_ok.mp addressed (word.trans (by decide))
  obtain ⟨started, created, represents⟩ :=
    StateVector.createBasis_represents dense word seed capabilities bound
  rw [← state, ← widths] at represents
  obtain ⟨same, v, ran, simulates⟩ := Simulates.run ⟨sound, waiting, represents⟩ unitary accepted
  refine ⟨started, v, created, ran, fun i below => ⟨left.represented i, ?_, ?_⟩⟩
  · rw [runOn_amplitude (by rwa [same, widths])]
  · exact simulates.amplitude_eq (by rwa [same, widths])

/-- A Hadamard gate and a controlled negation on two qubits. -/
theorem amplitude_eq_of_entangling_gates :
    ∃ reg left : Register ℝ, create 2 0 exactConfig 0 = .ok reg ∧
      (forM [.single .hadamard 0, .controlled [0] .pauliX 1] GateCall.run).runOn reg =
        (.ok (), left) ∧
      ∃ started v,
        StateVector.createBasis 2 exactConfig.denseLimit 0 .all 0 = .ok started ∧
        [GateCall.single .hadamard 0, .controlled [0] .pauliX 1].foldlM
          (fun v call => call.onVector v) started = .ok v ∧
        ∀ i < 2 ^ 2, ∃ a, ((amplitude i).runOn left).1 = .ok a ∧ v.amplitude i = .ok a := by
  obtain ⟨reg, made⟩ : ∃ reg, create 2 0 exactConfig 0 = .ok reg :=
    exists_create validate_exactConfig (by decide) rfl 0
  have width : reg.width = 2 := (sound_of_create made rfl).2.2.1
  have waits : (apply .hadamard 0).runOn reg = (.ok (), reg.waiting .hadamard 0) := by
    rw [runOn_apply, width, if_pos two_pos]
  obtain ⟨left, controlled⟩ : ∃ left,
      (applyWhere [0] true .pauliX 1).runOn (reg.waiting .hadamard 0) = (.ok (), left) := by
    have width : (reg.waiting .hadamard 0).width = 2 := width
    rw [runOn_applyWhere, if_neg nofun, checkGate_singleton (by rw [width]; decide)
      (by rw [width]; decide) (by decide)]
    exact ⟨_, rfl⟩
  have accepted : (forM [.single .hadamard 0, .controlled [0] .pauliX 1] GateCall.run).runOn reg =
      (.ok (), left) := by
    rw [List.forM_cons]
    refine (runOn_bind_of_ok waits _).trans ?_
    rw [List.forM_cons]
    exact runOn_bind_of_ok controlled _
  refine ⟨reg, left, made, accepted, ?_⟩
  refine amplitude_eq_of_gates rfl made (by decide) ?_ accepted 0 .all
  intro call member
  simp only [List.mem_cons, List.not_mem_nil, or_false] at member
  rcases member with rfl | rfl
  · exact Gate.hadamard_isUnitary
  · exact Gate.pauliX_isUnitary

end Register

end AmplitudeTree
