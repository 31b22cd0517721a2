import AmplitudeTree.Proofs.Exchange
import AmplitudeTree.Proofs.Register.GateRequest
import AmplitudeTree.Proofs.Register.WriteBack

/-!
# Exchanges of a register

The steps of each exchange mix the amplitudes of unequal qubits, in the tree or waiting, and return
whenever the qubits are usable.  So the exchanges of a register are those of the amplitudes that it
represents.
-/

namespace AmplitudeTree.Register

open AmplitudeTree.Action

variable {first second : ℕ} {state : Assignment → ℂ} {bits : Assignment}

/-! ## Steps on states -/

noncomputable def GateStep.act (step : GateStep ℝ) (state : Assignment → ℂ) : Assignment → ℂ :=
  step.gate.actWhere (asControls step.controls step.value) step.target state

noncomputable def actInTurn (steps : List (GateStep ℝ)) (state : Assignment → ℂ) : Assignment → ℂ :=
  steps.foldl (fun state step => step.act state) state

theorem actInTurn_append (steps more : List (GateStep ℝ)) (state : Assignment → ℂ) :
    actInTurn (steps ++ more) state = actInTurn more (actInTurn steps state) :=
  List.foldl_append

theorem act_negation (control target : ℕ) (state : Assignment → ℂ) :
    (GateStep.negation control target).act state = state ∘ negated control target := by
  funext bits
  rw [GateStep.act, GateStep.negation, Gate.actWhere, Gate.act_pauliX, selected_asControls]
  cases value : bits control <;> simp [negated, value]

theorem asControls_apart {controls : List ℕ}
    (apart : ∀ control ∈ controls, control ≠ first ∧ control ≠ second) :
    ∀ control ∈ asControls controls true, control.qubit ≠ first ∧ control.qubit ≠ second := by
  intro control member
  obtain ⟨qubit, listed, rfl⟩ := List.mem_map.mp member
  exact apart qubit listed

/-- A gate between two negations mixes the amplitudes of unequal values. -/
theorem actInTurn_unequalSteps {gate : Gate ℝ} (circulant : gate.IsCirculant) {controls : List ℕ}
    (different : first ≠ second)
    (apart : ∀ control ∈ controls, control ≠ first ∧ control ≠ second) :
    actInTurn (unequalSteps controls gate first second) state =
      mixUnequal gate.topLeft.toComplex gate.topRight.toComplex (asControls controls true)
        first second state := by
  funext bits
  have heeded :
      selected (asControls (controls ++ [first]) true) (negated second first bits) = true ↔
        selected (asControls controls true) bits = true ∧ bits first ≠ bits second := by
    have same : selected (asControls controls true) (negated second first bits) =
        selected (asControls controls true) bits :=
      selected_congr fun control member => negated_of_ne (asControls_apart apart control member).1
    rw [asControls, List.map_append, selected, List.all_append, ← selected, ← asControls, same]
    simp [negated_target, bne_iff_ne]
  rw [actInTurn, unequalSteps, List.foldl_cons, List.foldl_cons, List.foldl_cons, List.foldl_nil,
    act_negation, act_negation, Function.comp_apply, GateStep.act, Gate.actWhere, circulant.act]
  dsimp only
  rw [Function.comp_apply, Function.comp_apply, negated_negated different.symm,
    negated_of_ne different.symm, mixUnequal]
  by_cases mixes : selected (asControls controls true) bits = true ∧ bits first ≠ bits second
  · rw [if_pos (heeded.mpr mixes), if_pos mixes, negated_update_negated different mixes.2]
  · rw [if_neg (mt heeded.mp mixes), if_neg mixes]

/-! ## Named exchanges -/

theorem square_i : (⟨0, 1⟩ : Amplitude ℝ) * ⟨0, 1⟩ = -1 := by
  apply Amplitude.toComplex_injective
  apply Complex.ext <;> simp

theorem square_neg_i : (⟨0, -1⟩ : Amplitude ℝ) * ⟨0, -1⟩ = -1 := by
  apply Amplitude.toComplex_injective
  apply Complex.ext <;> simp

theorem actInTurn_phaseSteps (phase : ℝ) :
    actInTurn (if Scalar.same phase 0 then [] else
        [⟨[first], true, .diagonal 1 (.ofPolar 1 (-phase)), second⟩]) state bits =
      if bits first = true ∧ bits second = true then
        (Amplitude.ofPolar 1 (-phase)).toComplex * state bits
      else state bits := by
  split
  · next zero =>
      have one : (Amplitude.ofPolar 1 (-phase)).toComplex = 1 := by
        rw [(Scalar.same_iff phase 0).mp zero, Amplitude.toComplex_ofPolar]
        simp
      rw [one, one_mul, ite_self]
      rfl
  · rw [actInTurn, List.foldl_cons, List.foldl_nil, GateStep.act, Gate.actWhere,
      selected_asControls]
    simp only [List.all_cons, List.all_nil, Bool.and_true, beq_true, Gate.act_phase, ite_and]

section Named

variable {controls : List ℕ} (different : first ≠ second)
include different

theorem actInTurn_swapSteps : actInTurn (swapSteps first second) state =
    mixUnequal 0 1 [] first second state := by
  have steps : swapSteps first second = unequalSteps [] (Gate.pauliX : Gate ℝ) second first := rfl
  rw [steps, actInTurn_unequalSteps Gate.pauliX_isCirculant different.symm (List.forall_mem_nil _),
    mixUnequal_comm]
  rfl

theorem actInTurn_iSwapSteps {factor : Amplitude ℝ} (square : factor * factor = -1) :
    actInTurn (iSwapSteps (.diagonal 1 factor) first second) state =
      mixUnequal 0 factor.toComplex [] first second state := by
  have square : factor.toComplex * factor.toComplex = -1 := by
    rw [← Amplitude.toComplex_mul, square, Amplitude.toComplex_neg, Amplitude.toComplex_one]
  funext bits
  rw [iSwapSteps, actInTurn_append, actInTurn_swapSteps different, actInTurn, List.foldl_cons,
    List.foldl_cons, List.foldl_cons, List.foldl_nil]
  simp only [GateStep.act, GateStep.single, Gate.actWhere, selected_asControls, List.all_nil,
    List.all_cons, Bool.and_true, beq_true, if_true, Gate.act_phase, mixUnequal_zero_one,
    selected_nil]
  rw [mixUnequal, selected_nil, zero_mul, zero_add]
  have equal : bits first = bits second → exchanged first second bits = bits := exchanged_of_eq
  cases atFirst : bits first <;> cases atSecond : bits second <;> rw [atFirst, atSecond] at equal
  · simp [equal rfl]
  · simp
  · simp
  · simp [equal rfl, ← mul_assoc, square]

theorem actInTurn_mixingSteps (mixing : ℝ) :
    actInTurn (if Scalar.same mixing 0 then [] else
        unequalSteps [] (.rotateX (Scalar.two * mixing)) second first) state =
      mixUnequal ⟨Real.cos mixing, 0⟩ ⟨0, -Real.sin mixing⟩ [] first second state := by
  split
  · next zero =>
      rw [(Scalar.same_iff mixing 0).mp zero, Real.cos_zero, Real.sin_zero, neg_zero]
      exact mixUnequal_one_zero.symm
  · have half : Scalar.two * mixing / Scalar.two = mixing := by
      rw [show (Scalar.two : ℝ) = 2 from Nat.cast_ofNat, mul_div_cancel_left₀ mixing two_ne_zero]
    rw [actInTurn_unequalSteps (Gate.rotateX_isCirculant _) different.symm
      (List.forall_mem_nil _), mixUnequal_comm, Gate.rotateX, half]
    rfl

/-- Gates between negations that follow each other act like their products. -/
theorem actInTurn_unequalSteps_twice
    (apart : ∀ control ∈ controls, control ≠ first ∧ control ≠ second) {gate next : Gate ℝ}
    (circulant : gate.IsCirculant) (circulant' : next.IsCirculant) {product : Gate ℝ}
    (after : next.after gate = product) :
    actInTurn (unequalSteps controls gate first second ++ unequalSteps controls next first second)
        state =
      mixUnequal product.topLeft.toComplex product.topRight.toComplex (asControls controls true)
        first second state := by
  subst after
  rw [actInTurn_append, actInTurn_unequalSteps circulant different apart,
    actInTurn_unequalSteps circulant' different apart,
    mixUnequal_mixUnequal (asControls_apart apart), Gate.after, circulant.diagonal, circulant.antidiagonal]
  rfl

theorem actInTurn_fermionicSteps (mixing phase : ℝ) :
    actInTurn (fermionicSteps mixing phase first second) state bits =
      if bits first = true ∧ bits second = true then
        (Amplitude.ofPolar 1 (-phase)).toComplex * state bits
      else mixUnequal ⟨Real.cos mixing, 0⟩ ⟨0, -Real.sin mixing⟩ [] first second state bits := by
  have steps : fermionicSteps mixing phase first second =
      (if Scalar.same mixing 0 then [] else
        unequalSteps [] (.rotateX (Scalar.two * mixing)) second first) ++
      if Scalar.same phase 0 then [] else
        [⟨[first], true, .diagonal 1 (.ofPolar 1 (-phase)), second⟩] := rfl
  rw [steps, actInTurn_append, actInTurn_phaseSteps, actInTurn_mixingSteps different]
  by_cases both : bits first = true ∧ bits second = true
  · rw [if_pos both, if_pos both, mixUnequal,
      if_neg fun unequal => unequal.2 (both.1.trans both.2.symm)]
  · rw [if_neg both, if_neg both]

end Named

/-! ## Steps of a register -/

section Registers

variable {reg left : Register ℝ} {action : Action ℝ Unit} {steps : List (GateStep ℝ)}

/-- Steps with unitary gates act on the state one after the other. -/
theorem Taken.acts (taken : Taken reg steps left) (sound : reg.Sound)
    (unitary : reg.pending.Unitary) (gates : ∀ step ∈ steps, step.gate.IsUnitary) :
    left.Sound ∧ left.pending.Unitary ∧ left.state = actInTurn steps reg.state := by
  induction taken with
  | done => exact ⟨sound, unitary, rfl⟩
  | @step reg next left step steps returns _ ih =>
      obtain ⟨here, later⟩ := List.forall_mem_cons.mp gates
      obtain ⟨acts, -, -⟩ := sound.acts_applyWhere here (fun _ => unitary step.target) returns
      have ih := ih acts.sound (acts.unitary unitary) later
      rwa [acts.state] at ih

/-- An action returns, and the register that it leaves has the given amplitudes. -/
def Yields (action : Action ℝ Unit) (reg : Register ℝ) (amplitudes : BasisIndex → Amplitude ℝ) :
    Prop :=
  ∃ left, action.runOn reg = (.ok (), left) ∧ left.Sound ∧ left.pending.Unitary ∧
    left.width = reg.width ∧ ∀ index < 2 ^ reg.width, left.represented index = amplitudes index

/-- Steps that are carried out yield the amplitudes of their state. -/
theorem Carries.yields (carries : Carries reg.width action steps) (sound : reg.Sound)
    (unitary : reg.pending.Unitary) (gates : ∀ step ∈ steps, step.gate.IsUnitary)
    {amplitudes : BasisIndex → Amplitude ℝ}
    (acts : ∀ index < 2 ^ reg.width,
      actInTurn steps reg.state index.testBit = (amplitudes index).toComplex) :
    Yields action reg amplitudes := by
  obtain ⟨left, taken, returns⟩ := carries reg rfl
  obtain ⟨leftSound, leftUnitary, state⟩ := taken.acts sound unitary gates
  refine ⟨left, returns, leftSound, leftUnitary, taken.width_eq, fun index below => ?_⟩
  rw [← Amplitude.toComplex_inj, leftSound.toComplex_represented, state, acts index below]

/-! ## Exchanges of a register -/

/-- A gate on the amplitudes of `01` and `10` takes its steps on usable qubits. -/
theorem carries_onUnequal {width : ℕ} {controls : List ℕ} (gate : Gate ℝ)
    (usable : ¬Unusable width [first, second] controls) (different : first ≠ second) :
    Carries width (onUnequal controls gate first second)
      (unequalSteps controls gate first second) := by
  refine .of_outcome usable fun reg _ => ?_
  have outcome := onUnequal_outcome controls gate first second reg
  rwa [ifDistinct, if_neg different] at outcome

theorem apart_of_usable {width : ℕ} {controls : List ℕ}
    (usable : ¬Unusable width [first, second] controls) :
    ∀ control ∈ controls, control ≠ first ∧ control ≠ second := by
  simpa using (usable_iff.mp usable).2.2.2

theorem carries_onPair_iSwap {width : ℕ} {controls : List ℕ}
    (usable : ¬Unusable width [first, second] controls) (different : first ≠ second)
    (gate : Gate ℝ) :
    Carries width
      (onPair first second do
        swap first second
        controlledZ first second
        apply gate first
        apply gate second)
      (iSwapSteps gate first second) := by
  have inside := (usable_iff.mp usable).1
  have insideFirst : first < width := inside first (by simp)
  have insideSecond : second < width := inside second (by simp)
  exact (carries_iSwap insideFirst insideSecond different gate).onPair insideFirst insideSecond
    different

theorem unitary_unequalSteps (controls : List ℕ) {gate : Gate ℝ} (unitary : gate.IsUnitary) :
    ∀ step ∈ unequalSteps controls gate first second, step.gate.IsUnitary := by
  simp only [unequalSteps, GateStep.negation, List.forall_mem_cons]
  exact ⟨Gate.pauliX_isUnitary, unitary, Gate.pauliX_isUnitary, List.forall_mem_nil _⟩

theorem unitary_iSwapSteps {gate : Gate ℝ} (unitary : gate.IsUnitary) :
    ∀ step ∈ iSwapSteps gate first second, step.gate.IsUnitary := by
  have opposite : (Gate.diagonal 1 (-1) : Gate ℝ).IsUnitary :=
    Gate.diagonal_isUnitary Amplitude.normSq_one (by simp [Amplitude.normSq_eq])
  refine List.forall_mem_append.mpr
    ⟨unitary_unequalSteps [] Gate.pauliX_isUnitary, ?_⟩
  simp only [GateStep.single, List.forall_mem_cons]
  exact ⟨opposite, unitary, unitary, List.forall_mem_nil _⟩

theorem unitary_fermionicSteps (mixing phase : ℝ) :
    ∀ step ∈ fermionicSteps mixing phase first second, step.gate.IsUnitary := by
  have turned : (Gate.diagonal 1 (.ofPolar 1 (-phase)) : Gate ℝ).IsUnitary := by
    refine Gate.diagonal_isUnitary Amplitude.normSq_one ?_
    rw [Amplitude.normSq_eq, Amplitude.normSq_toComplex_ofPolar, one_mul]
  refine List.forall_mem_append.mpr ⟨?_, ?_⟩
  · split
    · exact List.forall_mem_nil _
    · exact unitary_unequalSteps [] (Gate.rotateX_isUnitary _)
  · split
    · exact List.forall_mem_nil _
    · exact List.forall_mem_singleton.mpr turned

theorem exists_swap (inside : first < reg.width) (inside' : second < reg.width) :
    ∃ v, reg.vector.swap first second = .ok v ∧ ∀ index < 2 ^ reg.width,
      v.amplitudeD index = reg.represented (StateVector.swapBits first second index) := by
  have run : reg.vector.swap first second = .ok (reg.vector.mapIndexed fun index _ =>
      reg.vector.amplitudeD (StateVector.swapBits first second index)) := by
    rw [StateVector.swap, StateVector.checkQubit, if_pos (by exact inside), StateVector.checkQubit,
      if_pos (by exact inside')]
    rfl
  refine ⟨_, run, fun index below => ?_⟩
  have stored : index < reg.vector.amplitudes.size := below.trans_eq (size_vector reg).symm
  have place : StateVector.swapBits first second index < 2 ^ reg.width := by
    unfold StateVector.swapBits
    split
    · exact below
    · exact Nat.xor_lt_two_pow (Nat.xor_lt_two_pow below (BasisIndex.power_lt inside))
        (BasisIndex.power_lt inside')
  rw [StateVector.amplitudeD, StateVector.mapIndexed, Array.getElem?_mapIdx,
    Array.getElem?_eq_getElem stored, Option.map_some, Option.getD_some, amplitudeD_vector place]

variable {controls : List ℕ}

noncomputable def representedSwapped (reg : Register ℝ) (controls : List ℕ) (first second : ℕ)
    (index : BasisIndex) : Amplitude ℝ :=
  if controls.all index.testBit then reg.represented (StateVector.swapBits first second index)
  else reg.represented index

theorem toComplex_representedSwapped (sound : reg.Sound) (different : first ≠ second)
    (index : BasisIndex) :
    (reg.representedSwapped controls first second index).toComplex =
      mixUnequal 0 1 (asControls controls true) first second reg.state index.testBit := by
  rw [representedSwapped, apply_ite Amplitude.toComplex, sound.toComplex_represented,
    sound.toComplex_represented, StateVector.testBit_swapBits different, mixUnequal_zero_one,
    selected_asControls]
  simp only [beq_true]

noncomputable def representedMixed (reg : Register ℝ) (keep cross : Amplitude ℝ)
    (first second : ℕ) (index : BasisIndex) : Amplitude ℝ :=
  if index.testBit first = index.testBit second then reg.represented index
  else keep * reg.represented index +
    cross * reg.represented (StateVector.swapBits first second index)

theorem toComplex_representedMixed (sound : reg.Sound) (different : first ≠ second)
    (keep cross : Amplitude ℝ) (index : BasisIndex) :
    (reg.representedMixed keep cross first second index).toComplex =
      mixUnequal keep.toComplex cross.toComplex [] first second reg.state index.testBit := by
  rw [representedMixed, apply_ite Amplitude.toComplex, Amplitude.toComplex_add,
    Amplitude.toComplex_mul, Amplitude.toComplex_mul, sound.toComplex_represented,
    sound.toComplex_represented, StateVector.testBit_swapBits different, mixUnequal, selected_nil]
  simp only [ne_eq, true_and, ite_not]

section Usable

variable (reachable : Reachable reg) (unitary : reg.pending.Unitary) (different : first ≠ second)
  (usable : ¬Unusable reg.width [first, second] controls)
include reachable unitary different usable

theorem yields_swap : Yields (swap first second) reg (reg.representedSwapped [] first second) := by
  have inside := (usable_iff.mp usable).1
  refine (carries_swap (inside first (by simp)) (inside second (by simp)) different).yields
    reachable.sound unitary (unitary_unequalSteps [] Gate.pauliX_isUnitary)
    fun index _ => ?_
  rw [actInTurn_swapSteps different, toComplex_representedSwapped reachable.sound different]
  rfl

theorem yields_controlledSwap :
    Yields (controlledSwap controls first second) reg
      (reg.representedSwapped controls first second) := by
  rw [controlledSwap]
  split
  · next none =>
      obtain rfl := List.isEmpty_iff.mp none
      exact yields_swap reachable unitary different usable
  · refine (carries_onUnequal _ usable different).yields reachable.sound unitary
      (unitary_unequalSteps controls Gate.pauliX_isUnitary) fun index _ => ?_
    rw [actInTurn_unequalSteps Gate.pauliX_isCirculant different (apart_of_usable usable),
      toComplex_representedSwapped reachable.sound different]
    rfl

theorem yields_sqrtSwap_twice :
    Yields (do sqrtSwap controls first second; sqrtSwap controls first second) reg
      (reg.representedSwapped controls first second) := by
  have root := carries_onUnequal Gate.sqrtX usable different
  refine (root.bind root).yields reachable.sound unitary
    (List.forall_mem_append.mpr ⟨unitary_unequalSteps controls Gate.sqrtX_isUnitary,
      unitary_unequalSteps controls Gate.sqrtX_isUnitary⟩) fun index _ => ?_
  rw [actInTurn_unequalSteps_twice different (apart_of_usable usable) Gate.sqrtX_isCirculant
    Gate.sqrtX_isCirculant Gate.sqrtX_after_sqrtX,
    toComplex_representedSwapped reachable.sound different]
  rfl

theorem yields_sqrtSwapInverse :
    Yields (do sqrtSwap controls first second; sqrtSwapInverse controls first second) reg
      reg.represented := by
  have root := carries_onUnequal Gate.sqrtX usable different
  have inverse := carries_onUnequal Gate.sqrtXInverse usable different
  refine (root.bind inverse).yields reachable.sound unitary
    (List.forall_mem_append.mpr ⟨unitary_unequalSteps controls Gate.sqrtX_isUnitary,
      unitary_unequalSteps controls Gate.sqrtXInverse_isUnitary⟩) fun index _ => ?_
  rw [actInTurn_unequalSteps_twice different (apart_of_usable usable) Gate.sqrtX_isCirculant
    Gate.sqrtXInverse_isCirculant Gate.sqrtX_isUnitary, reachable.sound.toComplex_represented]
  exact congrFun mixUnequal_one_zero _

theorem yields_iSwap :
    Yields (iSwap first second) reg (reg.representedMixed 0 ⟨0, 1⟩ first second) := by
  refine (carries_onPair_iSwap usable different .phaseS).yields reachable.sound unitary
    (unitary_iSwapSteps Gate.phaseS_isUnitary) fun index _ => ?_
  rw [Gate.phaseS, actInTurn_iSwapSteps different square_i,
    toComplex_representedMixed reachable.sound different]
  rfl

theorem yields_iSwapInverse :
    Yields (do iSwap first second; iSwapInverse first second) reg reg.represented := by
  refine ((carries_onPair_iSwap usable different .phaseS).bind
    (carries_onPair_iSwap usable different .phaseSInverse)).yields reachable.sound unitary
      (List.forall_mem_append.mpr ⟨unitary_iSwapSteps Gate.phaseS_isUnitary,
        unitary_iSwapSteps Gate.phaseSInverse_isUnitary⟩) fun index _ => ?_
  rw [actInTurn_append, Gate.phaseS, actInTurn_iSwapSteps different square_i, Gate.phaseSInverse,
    actInTurn_iSwapSteps different square_neg_i, mixUnequal_mixUnequal (List.forall_mem_nil _),
    reachable.sound.toComplex_represented]
  have keep : 0 * 0 + (⟨0, -1⟩ : Amplitude ℝ).toComplex * (⟨0, 1⟩ : Amplitude ℝ).toComplex = 1 := by
    apply Complex.ext <;> simp
  rw [keep, zero_mul, mul_zero, add_zero]
  exact congrFun mixUnequal_one_zero _

theorem yields_fermionic (mixing phase : ℝ) :
    Yields (fermionic mixing phase first second) reg fun index =>
      if index.testBit first = true ∧ index.testBit second = true then
        .ofPolar 1 (-phase) * reg.represented index
      else reg.representedMixed ⟨Real.cos mixing, 0⟩ ⟨0, -Real.sin mixing⟩ first second index := by
  obtain ⟨inside, -⟩ := usable_iff.mp usable
  have insideFirst : first < reg.width := inside first (by simp)
  have insideSecond : second < reg.width := inside second (by simp)
  refine ((carries_fermionic insideFirst insideSecond different mixing phase).onPair insideFirst
    insideSecond different).yields reachable.sound unitary (unitary_fermionicSteps mixing phase)
      fun index _ => ?_
  rw [actInTurn_fermionicSteps different, apply_ite Amplitude.toComplex, Amplitude.toComplex_mul,
    reachable.sound.toComplex_represented, toComplex_representedMixed reachable.sound different]
  rfl

end Usable

/-- Each exchange returns on two different qubits with usable controls, whatever unitary gates wait,
and exchanges the amplitudes with its factors.  Two square roots make an exchange, and each inverse
undoes its exchange. -/
theorem exchanges_yield (reachable : Reachable reg) (unitary : reg.pending.Unitary)
    (different : first ≠ second) (usable : ¬Unusable reg.width [first, second] controls) :
    (∃ v, reg.vector.swap first second = .ok v ∧ Yields (swap first second) reg v.amplitudeD ∧
      ∀ index < 2 ^ reg.width,
        v.amplitudeD index = reg.represented (StateVector.swapBits first second index)) ∧
    Yields (controlledSwap controls first second) reg
      (reg.representedSwapped controls first second) ∧
    Yields (do sqrtSwap controls first second; sqrtSwap controls first second) reg
      (reg.representedSwapped controls first second) ∧
    Yields (do sqrtSwap controls first second; sqrtSwapInverse controls first second) reg
      reg.represented ∧
    Yields (iSwap first second) reg (reg.representedMixed 0 ⟨0, 1⟩ first second) ∧
    Yields (do iSwap first second; iSwapInverse first second) reg reg.represented ∧
    ∀ mixing phase : ℝ, Yields (fermionic mixing phase first second) reg fun index =>
      if index.testBit first = true ∧ index.testBit second = true then
        .ofPolar 1 (-phase) * reg.represented index
      else reg.representedMixed ⟨Real.cos mixing, 0⟩ ⟨0, -Real.sin mixing⟩ first second index := by
  have inside := (usable_iff.mp usable).1
  obtain ⟨v, run, entries⟩ :=
    reg.exists_swap (inside first (by simp)) (inside second (by simp))
  obtain ⟨left, returns, sound, leftUnitary, width, represented⟩ :=
    yields_swap reachable unitary different usable
  have swapped : Yields (swap first second) reg v.amplitudeD :=
    ⟨left, returns, sound, leftUnitary, width, fun index below =>
      (represented index below).trans (entries index below).symm⟩
  exact ⟨⟨v, run, swapped, entries⟩, yields_controlledSwap reachable unitary different usable,
    yields_sqrtSwap_twice reachable unitary different usable,
    yields_sqrtSwapInverse reachable unitary different usable,
    yields_iSwap reachable unitary different usable,
    yields_iSwapInverse reachable unitary different usable,
    yields_fermionic reachable unitary different usable⟩

/-- An exchange controlled by a qubit on which a Hadamard gate waits. -/
theorem exchanges_yield_waiting_hadamard : ∃ reg left : Register ℝ,
    create 3 1 exactConfig 0 = .ok reg ∧
      (controlledSwap [2] 0 1).runOn (reg.waiting .hadamard 2) = (.ok (), left) ∧
        left.represented 6 ≠ 0 ∧ left.represented 5 = 0 := by
  obtain ⟨reg, made, ready, width, -, -, represented⟩ :=
    exists_ready_of_basis 3 (by decide) (show 1 < 2 ^ 3 by decide)
  have sound := ready.reachable.sound
  have inside : 2 < reg.width := by rw [width]; decide
  have ran : (applyWhere [] true .hadamard 2).runOn reg = (.ok (), reg.waiting .hadamard 2) := by
    rw [applyWhere, if_pos List.isEmpty_nil, runOn_apply, if_pos inside]
  have waits : (reg.waiting .hadamard 2).Ready := by
    have called := ready.gate Gate.hadamard_isUnitary [] true 2
    rwa [ran] at called
  have widths : (reg.waiting .hadamard 2).width = 3 := width
  have usable : ¬Unusable (reg.waiting .hadamard 2).width [0, 1] [2] :=
    usable_iff.mpr (by simp [widths])
  obtain ⟨-, ⟨left, returns, -, -, -, found⟩, -⟩ :=
    exchanges_yield waits.reachable waits.unitary (by decide) usable
  have state := (sound.waiting_state ready.unitary Gate.hadamard_isUnitary inside).2
  have mixed (index : BasisIndex) : ((reg.waiting .hadamard 2).represented index).toComplex =
      (Gate.hadamard : Gate ℝ).mixed (index.testBit 2)
        (reg.represented (index.clear (.power 2))).toComplex
        (reg.represented (index ||| .power 2)).toComplex := by
    rw [waits.reachable.sound.toComplex_represented, state, Gate.act, sound.toComplex_represented,
      sound.toComplex_represented, BasisIndex.testBit_clear_power, BasisIndex.testBit_or_power]
  have swapped {index origin : BasisIndex} (below : index < 8) (set : index.testBit 2 = true)
      (place : StateVector.swapBits 0 1 index = origin) :
      left.represented index = (reg.waiting .hadamard 2).represented origin := by
    rw [found index (by rwa [widths]), representedSwapped, if_pos (by simpa using set), place]
  refine ⟨reg, left, made, returns, ?_, ?_⟩
  · rw [swapped (by decide) (by decide) (show _ = 5 by decide), Ne,
      ← Amplitude.toComplex_eq_zero_iff, mixed, represented _ (by decide), represented _ (by decide), if_pos (by decide),
      if_neg (by decide)]
    exact Gate.mixed_hadamard_ne_zero _
  · rw [swapped (by decide) (by decide) (show _ = 6 by decide), ← Amplitude.toComplex_eq_zero_iff,
      mixed, represented _ (by decide), represented _ (by decide), if_neg (by decide),
      if_neg (by decide)]
    exact Gate.mixed_zero _ _

end Registers

end AmplitudeTree.Register
