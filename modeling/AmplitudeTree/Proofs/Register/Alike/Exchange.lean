import AmplitudeTree.Proofs.Register.Alike.Basic
import AmplitudeTree.Register.Exchange

/-!
# Exchanges in alike registers

An exchange of two qubits is a sequence of controlled unitary gates.  An action respects alikeness
if it agrees on all alike registers, and sequences of such actions do so again.
-/

namespace AmplitudeTree

namespace Register

open AmplitudeTree.Action

variable {α β : Type} {reg other : Register ℝ}

/-! ## Actions on alike registers -/

def Respects (action : Action ℝ α) : Prop :=
  ∀ reg other, Alike reg other → Agree (action.runOn reg) (action.runOn other)

theorem Respects.pure (a : α) : Respects (Pure.pure a : Action ℝ α) :=
  fun _ _ alike => ⟨rfl, alike⟩

theorem Respects.ofExcept (result : Except (RegisterError ℝ) α) :
    Respects (Action.ofExcept result) :=
  fun _ _ alike => ⟨rfl, alike⟩

theorem Respects.bind {action : Action ℝ α} {next : α → Action ℝ β} (first : Respects action)
    (rest : ∀ a, Respects (next a)) : Respects (action >>= next) := by
  intro reg other alike
  obtain ⟨answer, left⟩ := first reg other alike
  rw [runOn_bind, runOn_bind]
  generalize action.runOn reg = run at *
  generalize action.runOn other = run' at *
  obtain ⟨result, after⟩ := run
  obtain ⟨result', after'⟩ := run'
  obtain rfl : result' = result := answer
  cases result' with
  | ok a => exact rest a after after' left
  | error e => exact ⟨rfl, left⟩

/-- An action that looks at the register respects alikeness if it does the same on alike ones. -/
theorem Respects.get_bind {next : Register ℝ → Action ℝ α}
    (same : ∀ reg other, Alike reg other → next other = next reg)
    (rest : ∀ reg, Respects (next reg)) : Respects (get >>= next) := by
  intro reg other alike
  rw [runOn_bind, runOn_bind, runOn_get, runOn_get]
  dsimp only
  rw [same reg other alike]
  exact rest reg reg other alike

theorem Respects.check {condition : Register ℝ → Except (RegisterError ℝ) Unit}
    (same : ∀ reg other, Alike reg other → condition other = condition reg) :
    Respects (check condition) :=
  fun reg other alike => ⟨same reg other alike, alike⟩

theorem Respects.applyWhere {gate : Gate ℝ} (unitary : gate.IsUnitary) (controls : List ℕ)
    (value : Bool) (target : ℕ) : Respects (applyWhere controls value gate target) :=
  fun _ _ alike => alike.applyWhere unitary controls value target

theorem Respects.apply {gate : Gate ℝ} (unitary : gate.IsUnitary) (target : ℕ) :
    Respects (apply gate target) :=
  Respects.applyWhere unitary [] true target

/-! ## Exchanges -/

theorem Respects.cnot (control target : ℕ) : Respects (cnot control target : Action ℝ Unit) :=
  Respects.applyWhere Gate.pauliX_isUnitary [control] true target

theorem Respects.controlledZ (control target : ℕ) :
    Respects (controlledZ control target : Action ℝ Unit) :=
  Respects.applyWhere (Gate.diagonal_isUnitary (by simp [Amplitude.normSq_eq])
    (by simp [Amplitude.normSq_eq])) [control] true target

theorem Respects.onPair {action : Action ℝ Unit} (respects : Respects action) (first second : ℕ) :
    Respects (onPair first second action) := by
  have checks (qubit : ℕ) : Respects (Action.check (·.checkQubit qubit) : Action ℝ Unit) :=
    Respects.check fun _ _ alike => checkQubit_congr alike.width qubit
  refine (checks first).bind fun _ => (checks second).bind fun _ => ?_
  split
  · exact Respects.pure ()
  · exact respects

theorem Respects.swap (first second : ℕ) : Respects (swap first second : Action ℝ Unit) :=
  Respects.onPair ((Respects.cnot first second).bind fun _ =>
    (Respects.cnot second first).bind fun _ => Respects.cnot first second) first second

theorem Respects.iSwap (first second : ℕ) : Respects (iSwap first second : Action ℝ Unit) :=
  Respects.onPair ((Respects.swap first second).bind fun _ =>
    (Respects.controlledZ first second).bind fun _ =>
      (Respects.apply Gate.phaseS_isUnitary first).bind fun _ =>
        Respects.apply Gate.phaseS_isUnitary second) first second

theorem Respects.iSwapInverse (first second : ℕ) :
    Respects (iSwapInverse first second : Action ℝ Unit) :=
  Respects.onPair ((Respects.swap first second).bind fun _ =>
    (Respects.controlledZ first second).bind fun _ =>
      (Respects.apply Gate.phaseSInverse_isUnitary first).bind fun _ =>
        Respects.apply Gate.phaseSInverse_isUnitary second) first second

theorem Respects.onUnequal {gate : Gate ℝ} (unitary : gate.IsUnitary) (controls : List ℕ)
    (first second : ℕ) : Respects (onUnequal controls gate first second) := by
  refine Respects.get_bind (fun reg other alike => ?_) fun reg => ?_
  · rw [checkGate_congr alike.width, checkGate_congr alike.width]
  · refine (Respects.ofExcept _).bind fun _ => (Respects.ofExcept _).bind fun _ => ?_
    split
    · exact Respects.pure ()
    · exact (Respects.cnot second first).bind fun _ =>
        (Respects.applyWhere unitary _ true second).bind fun _ => Respects.cnot second first

theorem Respects.controlledSwap (controls : List ℕ) (first second : ℕ) :
    Respects (controlledSwap controls first second : Action ℝ Unit) := by
  unfold Register.controlledSwap
  split
  · exact Respects.swap first second
  · exact Respects.onUnequal Gate.pauliX_isUnitary controls first second

theorem Respects.fermionic (mixing phase : ℝ) (first second : ℕ) :
    Respects (fermionic mixing phase first second) := by
  have turn : Respects (applyControlled [first] (.diagonal 1 (.ofPolar 1 (-phase))) second) :=
    Respects.applyWhere (Gate.diagonal_isUnitary (by simp [Amplitude.normSq_eq])
      (by rw [Amplitude.normSq_eq, Amplitude.normSq_toComplex_ofPolar, mul_one])) [first] true second
  have mix : Respects (applyControlled [second] (.rotateX (Scalar.two * mixing)) first) :=
    Respects.applyWhere (Gate.rotateX_isUnitary _) [second] true first
  have last : Respects (if !Scalar.same phase 0 then
      applyControlled [first] (.diagonal 1 (.ofPolar 1 (-phase))) second
    else Pure.pure ()) := by
    split
    · exact turn
    · exact Respects.pure ()
  refine Respects.onPair ?_ first second
  dsimp only
  cases Scalar.same mixing 0 with
  | true => exact last
  | false =>
      exact (Respects.cnot first second).bind fun _ => mix.bind fun _ =>
        (Respects.cnot first second).bind fun _ => last

end Register

end AmplitudeTree
