import AmplitudeTree.Proofs.Register.Measure
import AmplitudeTree.Register.Vector

/-!
# Registers and their state vectors

An operation on the state vector of a register fails without a trace: until it has returned an
amplitude that is not zero, the register has only settled its waiting gates and drawn a seed.
-/

namespace AmplitudeTree.Register

open AmplitudeTree.Action

variable {α : Type} {reg : Register ℝ}

/-! ## Conditions -/

theorem checkDense_eq_ok : reg.checkDense = .ok () ↔ reg.width ≤ reg.config.denseLimit := by
  unfold checkDense
  split <;> simp_all

/-! ## The state vector of a register -/

noncomputable def listed (reg : Register ℝ) : Register ℝ :=
  { reg.settleAll with generator := reg.settleAll.generator.word.2 }

noncomputable def vector (reg : Register ℝ) : StateVector ℝ where
  width := reg.width
  amplitudes := Array.ofFn fun index : Fin (2 ^ reg.width) => reg.represented index
  generator := .ofSeed reg.settleAll.generator.word.1
  capabilities := reg.factory.capabilities

theorem Sound.settles_listed (sound : reg.Sound) : Settles reg reg.listed :=
  have settled := sound.settles_settleAll
  settled.trans (settled.sound.withGenerator _)

def Refuses (reg : Register ℝ) : Prop :=
  reg.factory.limit < reg.width ∨ BasisIndex.wordBits ≤ reg.width

instance (reg : Register ℝ) : Decidable reg.Refuses :=
  inferInstanceAs (Decidable (_ ∨ _))

/-- The factory either refuses, or its state vector takes the amplitudes of the register. -/
theorem Sound.create_vector (sound : reg.Sound) :
    ((reg.listed.factory.create reg.listed.width reg.settleAll.generator.word.1).bind fun v =>
        v.setAmplitudes reg.settleAll.tree.amplitudes) =
      if reg.Refuses then .error (.tooManyQubits reg.width reg.factory.limit)
      else .ok reg.vector := by
  have listed := sound.settles_listed
  have width : reg.settleAll.tree.width = reg.width := listed.width
  rw [listed.width, listed.factory, VectorFactory.create, StateVector.create]
  by_cases refuses : reg.Refuses
  · rw [if_pos (by simpa [Refuses] using refuses), if_pos refuses]
    rfl
  · rw [if_neg (by simpa [Refuses] using refuses), if_neg refuses]
    dsimp only [Except.bind]
    rw [StateVector.setAmplitudes, if_pos (by simp [Tree.amplitudes, width]), vector,
      Tree.amplitudes, width]
    rfl

/-- The state vector is listed from the amplitudes of the settled register. -/
theorem Sound.runOn_toVector (sound : reg.Sound) {required : List OperatorSet}
    (offered : reg.checkOperators required = .ok ()) (dense : reg.checkDense = .ok ()) :
    (toVector required).runOn reg =
      (if reg.Refuses then .error (.vector (.tooManyQubits reg.width reg.factory.limit))
        else .ok reg.vector, reg.listed) := by
  have created := congrArg (Except.mapError (RegisterError.vector (R := ℝ))) sound.create_vector
  rw [apply_ite (Except.mapError _)] at created
  have checks : (toVector required).runOn reg =
      (Except.mapError .vector
        ((reg.listed.factory.create reg.listed.width reg.settleAll.generator.word.1).bind fun v =>
          v.setAmplitudes reg.settleAll.tree.amplitudes), reg.listed) := by
    rw [toVector, runOn_bind, runOn_check, offered]
    dsimp only
    rw [runOn_bind, runOn_check, dense]
    rfl
  rw [checks, created]
  rfl

/-- An operation on the state vector keeps the register unless it returns an
amplitude that counts. -/
theorem Sound.runOn_withVector (sound : reg.Sound) {required : List OperatorSet}
    (offered : reg.checkOperators required = .ok ()) (dense : reg.checkDense = .ok ())
    (accepts : ¬ reg.Refuses) (op : StateVector ℝ → Except VectorError (α × StateVector ℝ)) :
    (withVector required op).runOn reg =
      match op reg.vector with
      | .error e => (.error (.vector e), reg.listed)
      | .ok (a, v) =>
          if v.amplitudes.all (Amplitude.negligible reg.threshold) then (.error .zeroNorm, reg.listed)
          else (.ok a, { reg.listed with tree := reg.listed.treeOf v.amplitudes }.afterChange) := by
  rw [withVector, runOn_bind, sound.runOn_toVector offered dense, if_neg accepts]
  dsimp only
  rw [runOn_bind, runOn_ofExcept]
  cases op reg.vector with
  | error e => rfl
  | ok result =>
      obtain ⟨a, v⟩ := result
      dsimp only [Except.mapError]
      rw [runOn_bind, runOn_get, ← sound.settles_listed.threshold_eq]
      dsimp only
      split <;> rfl

theorem keeps_toVector (required : List OperatorSet) :
    Keeps (toVector required : Action ℝ (StateVector ℝ)) :=
  (Keeps.check _).bind fun _ => (Keeps.check _).bind fun _ =>
    (Keeps.modify fun _ sound => sound.settles_settleAll.toRetains).bind fun _ =>
      Keeps.bind (fun _ sound => (sound.withGenerator _).toRetains) fun _ =>
        Keeps.get.bind fun _ => fun _ sound => sound.retains_refl

theorem Sound.withAmplitudes (sound : reg.Sound) (amplitudes : Array (Amplitude ℝ)) :
    Retains reg { reg with tree := reg.treeOf amplitudes } where
  sound := sound.withTree (by
    rw [treeOf, sound.threshold_eq]
    exact Tree.sound_ofAmplitudes _ _) rfl
  width := rfl
  config := rfl
  factory := rfl

theorem keeps_withVector (required : List OperatorSet)
    (op : StateVector ℝ → Except VectorError (α × StateVector ℝ)) :
    Keeps (withVector required op) := by
  refine (keeps_toVector required).bind fun v => Keeps.bind (fun _ sound => sound.retains_refl)
    fun result => Keeps.get_bind fun reg sound => ?_
  dsimp only
  split
  · exact sound.retains_refl
  · have replaced := sound.withAmplitudes result.2.amplitudes
    exact replaced.trans replaced.sound.settles_afterChange.toRetains

end AmplitudeTree.Register
