import AmplitudeTree.Proofs.Register.Parity
import AmplitudeTree.Proofs.Register.Refusal

/-!
# Parity rotations

A parity rotation turns the phase of odd parity by an angle and that of even parity by the opposite
angle, where its controls are set.  For a mask of one qubit it is a controlled gate, for a mask of
several qubits a pass over the state vector.  Both turn the same phases, but they do not accept the
same controls: only the gate refuses a control that is repeated or masked.
-/

namespace AmplitudeTree.Register

open AmplitudeTree.Action
open AmplitudeTree.StateVector (isOdd)

variable {reg left : Register ℝ} {mask : BasisIndex} {controls : List ℕ} {angle : ℝ}

/-- The basis states whose controls are set are turned by the angle or, if their parity is even, by
its opposite. -/
structure ParityRotated (reg : Register ℝ) (controls : List ℕ) (mask : BasisIndex) (angle : ℝ)
    (left : Register ℝ) : Prop where
  width : left.width = reg.width
  turned : ∀ index < 2 ^ reg.width, (∀ control ∈ controls, index.testBit control = true) →
    (left.represented index).toComplex =
      Complex.exp ((if isOdd mask index then angle else -angle : ℝ) * Complex.I) *
        (reg.represented index).toComplex
  kept : ∀ index < 2 ^ reg.width, ¬ (∀ control ∈ controls, index.testBit control = true) →
    left.represented index = reg.represented index

theorem ParityRotated.of_factor (width : left.width = reg.width)
    (represented : ∀ index < 2 ^ reg.width, (left.represented index).toComplex =
      (if ∀ control ∈ controls, index.testBit control = true then
        Complex.exp ((if isOdd mask index then angle else -angle : ℝ) * Complex.I) else 1) *
        (reg.represented index).toComplex) :
    ParityRotated reg controls mask angle left where
  width := width
  turned index below selected := by rw [represented index below, if_pos selected]
  kept index below unselected := by
    apply Amplitude.toComplex_injective
    rw [represented index below, if_neg unselected, one_mul]

/-- A parity rotation of qubits of the register is a gate if the mask has one qubit. -/
theorem runOn_rotateParity (nonempty : mask ≠ 0) (inside : mask < 2 ^ reg.width) (controls : List ℕ)
    (angle : ℝ) :
    (rotateParity controls mask angle).runOn reg =
      (if mask.isPower then applyControlled controls (.parityPhase angle) mask.highestSet
        else do
          controls.forM fun control => check (·.checkQubit control)
          let mask ← query (·.maskWord mask)
          withVector [.parity] fun v => .ok ((), v.rotateParity controls mask angle)).runOn reg := by
  have proper : ¬ (mask == 0) = true := by simpa using nonempty
  rw [rotateParity, if_neg proper, runOn_bind, runOn_check, checkMask_eq_ok nonempty inside]

/-! ## One qubit -/

theorem parityPhase_isUnitary (angle : ℝ) : (Gate.parityPhase angle).IsUnitary :=
  Gate.diagonal_isUnitary (by rw [Amplitude.normSq_eq, Amplitude.normSq_toComplex_ofPolar, mul_one])
    (by rw [Amplitude.normSq_eq, Amplitude.normSq_toComplex_ofPolar, mul_one])

theorem act_parityPhase (angle : ℝ) (qubit : ℕ) (state : Assignment → ℂ) (index : BasisIndex) :
    (Gate.parityPhase angle).act qubit state index.testBit =
      Complex.exp ((if isOdd (.power qubit) index then angle else -angle : ℝ) * Complex.I) *
        state index.testBit := by
  have diagonal : (Gate.parityPhase angle).isDiagonal 0 = true :=
    (Gate.parityPhase angle).isDiagonal_iff.mpr ⟨rfl, rfl⟩
  rw [Gate.act_diagonal diagonal, StateVector.isOdd_power]
  cases index.testBit qubit <;> simp [Gate.parityPhase, Gate.diagonal, Amplitude.toComplex_ofPolar]

/-- A rotation for one qubit is refused if a control lies outside the register, is repeated or is
the qubit. -/
theorem rotateParity_power_judged (reg : Register ℝ) {qubit : ℕ} (inside : qubit < reg.width)
    (controls : List ℕ) (angle : ℝ) :
    ((∃ left, (rotateParity controls (.power qubit) angle).runOn reg = (.ok (), left)) ↔
      (∀ control ∈ controls, control < reg.width) ∧ controls.Nodup ∧
        ∀ control ∈ controls, (BasisIndex.power qubit).testBit control = false) ∧
    ∀ e left, (rotateParity controls (.power qubit) angle).runOn reg = (.error e, left) →
      left = reg ∧ Blames reg.width [qubit] controls e := by
  have usable : ¬ Unusable reg.width [qubit] controls ↔
      (∀ control ∈ controls, control < reg.width) ∧ controls.Nodup ∧
        ∀ control ∈ controls, (BasisIndex.power qubit).testBit control = false := by
    simp [usable_iff, inside, BasisIndex.power, Nat.testBit_two_pow, eq_comm]
  have outcome := applyWhere_outcome controls true (.parityPhase angle) qubit reg
  rw [runOn_rotateParity (BasisIndex.power_ne_zero qubit) (BasisIndex.power_lt inside),
    if_pos (BasisIndex.isPower_power qubit), BasisIndex.highestSet_power, applyControlled, ← usable]
  generalize (applyWhere controls true (.parityPhase angle) qubit).runOn reg = run at outcome ⊢
  cases outcome with
  | refused blames =>
      refine ⟨iff_of_false ?_ (not_not.mpr blames.unusable), ?_⟩
      · rintro ⟨left, ⟨⟩⟩
      · rintro e left ⟨⟩
        exact ⟨rfl, blames⟩
  | @taken left usable =>
      refine ⟨iff_of_true ⟨left, rfl⟩ usable, ?_⟩
      rintro e left ⟨⟩

theorem Sound.rotateParity_power (sound : reg.Sound) {qubit : ℕ} (inside : qubit < reg.width)
    (joined : controls = [] → ∀ waiting, reg.pending.get? qubit = some waiting → waiting.IsUnitary)
    (run : (rotateParity controls (.power qubit) angle).runOn reg = (.ok (), left)) :
    ParityRotated reg controls (.power qubit) angle left := by
  rw [runOn_rotateParity (BasisIndex.power_ne_zero qubit) (BasisIndex.power_lt inside),
    if_pos (BasisIndex.isPower_power qubit), BasisIndex.highestSet_power] at run
  obtain ⟨acts, -, -⟩ := sound.acts_applyWhere (parityPhase_isUnitary angle) joined run
  refine .of_factor acts.width fun index below => ?_
  rw [acts.sound.toComplex_represented, sound.toComplex_represented, acts.state, Gate.actWhere,
    act_parityPhase, selected_asControls]
  simp only [List.all_eq_true, beq_iff_eq, ite_mul, one_mul]

/-! ## Several qubits -/

theorem runOn_checkQubits (reg : Register ℝ) (controls : List ℕ) :
    (controls.forM fun control => check (·.checkQubit control)).runOn reg =
      (match controls.find? fun control => reg.width ≤ control with
        | some outside => .error (.qubitOutOfRange outside reg.width)
        | none => .ok (), reg) := by
  induction controls with
  | nil => rfl
  | cons control rest ih =>
      change (check (·.checkQubit control) >>= fun _ =>
        rest.forM fun control => check (·.checkQubit control)).runOn reg = _
      rw [runOn_bind, runOn_check, checkQubit]
      by_cases inside : control < reg.width
      · rw [if_pos inside, List.find?_cons_of_neg (by simpa using inside)]
        exact ih
      · rw [if_neg inside, List.find?_cons_of_pos (by simpa using inside)]

/-- A rotation for several qubits only asks its controls to be qubits of the register. -/
theorem Sound.rotateParity_several (sound : reg.Sound) (nonempty : mask ≠ 0)
    (inside : mask < 2 ^ reg.width) (several : mask.isPower = false) :
    (rotateParity controls mask angle).runOn reg = (.ok (), left) ↔
      (∀ control ∈ controls, control < reg.width) ∧ Expands reg [.parity] ∧
        (∃ index < 2 ^ reg.width, reg.represented index ≠ 0) ∧
          left = reg.replaced (reg.vector.rotateParity controls mask angle).amplitudes := by
  have nonzero : ¬ (reg.vector.rotateParity controls mask angle).Vanishes ↔
      ∃ index < 2 ^ reg.width, reg.represented index ≠ 0 := by
    rw [StateVector.vanishes_rotateParity_iff, vanishes_vector_iff]
    push Not
    rfl
  rw [runOn_rotateParity nonempty inside, several, if_neg Bool.false_ne_true, runOn_bind,
    runOn_checkQubits]
  cases found : controls.find? fun control => reg.width ≤ control with
  | some outside =>
      have beyond : reg.width ≤ outside := by simpa using List.find?_some found
      refine iff_of_false nofun ?_
      rintro ⟨within, -⟩
      exact absurd (within outside (List.mem_of_find?_eq_some found)) (not_lt.mpr beyond)
  | none =>
      have within : ∀ control ∈ controls, control < reg.width := by
        simpa using List.find?_eq_none.mp found
      dsimp only
      rw [and_iff_right within, runOn_bind_eq_ok, ← nonzero]
      constructor
      · rintro ⟨word, middle, asked, run⟩
        obtain ⟨answered, rfl⟩ := Prod.mk.inj asked
        obtain ⟨expands, v, rotated, remains, rfl⟩ := sound.runOn_withVector_eq_ok.mp run
        obtain rfl := Except.ok.inj ((sound.maskWord_eq_ok expands inside).symm.trans answered)
        obtain ⟨-, rfl⟩ := Prod.mk.inj (Except.ok.inj rotated)
        exact ⟨expands, remains, rfl⟩
      · rintro ⟨expands, remains, rfl⟩
        refine ⟨mask, reg, ?_, sound.runOn_withVector_eq_ok.mpr ⟨expands, _, rfl, remains, rfl⟩⟩
        rw [runOn_query, sound.maskWord_eq_ok expands inside]

theorem Sound.replaced_rotateParity (sound : reg.Sound)
    (within : ∀ control ∈ controls, control < reg.width) :
    ParityRotated reg controls mask angle
      (reg.replaced (reg.vector.rotateParity controls mask angle).amplitudes) := by
  obtain ⟨width, represented⟩ :=
    sound.replaced (reg.vector.rotateParity controls mask angle).amplitudes
  refine .of_factor width fun index below => ?_
  have entry := reg.vector.amplitudeD_rotateParity controls mask angle index
  have heeded : (∀ control ∈ controls, control < reg.width → index.testBit control = true) ↔
      ∀ control ∈ controls, index.testBit control = true :=
    forall₂_congr fun control listed => forall_prop_of_true (within control listed)
  rw [width_vector, amplitudeD_vector below, if_congr heeded rfl rfl] at entry
  rw [represented index below]
  exact entry

theorem Sound.rotateParity_several_error (sound : reg.Sound) (nonempty : mask ≠ 0)
    (inside : mask < 2 ^ reg.width) (several : mask.isPower = false) {e : RegisterError ℝ}
    (run : (rotateParity controls mask angle).runOn reg = (.error e, left)) :
    Settles reg left := by
  rw [runOn_rotateParity nonempty inside, several, if_neg Bool.false_ne_true, runOn_bind,
    runOn_checkQubits] at run
  cases found : controls.find? fun control => reg.width ≤ control with
  | some outside =>
      rw [found] at run
      cases run
      exact sound.settles_refl
  | none =>
      rw [found] at run
      exact Traceless.query_bind _ (fun mask => traceless_withVector _ _) sound run

/-! ## Every mask -/

/-- A parity rotation that returns turns the phases of the basis states whose controls are set, and
one that is refused changes nothing.  For one masked qubit the controls must be distinct and apart
from it; for several of them they may be repeated and masked. -/
theorem parity_rotated (reachable : reg.Reachable) (nonempty : mask ≠ 0) (inside : mask < 2 ^ reg.width)
    (controls : List ℕ) (angle : ℝ) :
    ((∃ left, (rotateParity controls mask angle).runOn reg = (.ok (), left)) ↔
      (∀ control ∈ controls, control < reg.width) ∧
        if mask.isPower then controls.Nodup ∧ ∀ control ∈ controls, mask.testBit control = false
        else Expands reg [.parity] ∧ ∃ index < 2 ^ reg.width, reg.represented index ≠ 0) ∧
    ((mask.isPower = true → controls = [] → ∀ waiting,
        reg.pending.get? mask.highestSet = some waiting → waiting.IsUnitary) →
      ∀ left, (rotateParity controls mask angle).runOn reg = (.ok (), left) →
        ParityRotated reg controls mask angle left) ∧
    ∀ e left, (rotateParity controls mask angle).runOn reg = (.error e, left) →
      Unchanged reg left ∧
        (mask.isPower = true → left = reg ∧ Blames reg.width [mask.highestSet] controls e) := by
  have sound := reachable.sound
  cases single : mask.isPower with
  | true =>
      have qubit : mask.highestSet < reg.width := (Nat.log2_lt nonempty).mpr inside
      obtain ⟨accepts, refuses⟩ := rotateParity_power_judged reg qubit controls angle
      have rotated := fun left => @Sound.rotateParity_power reg left controls angle sound _ qubit
      rw [← BasisIndex.eq_power_of_isPower single] at accepts refuses rotated
      refine ⟨accepts, fun joined left => rotated left (joined rfl), fun e left run => ?_⟩
      obtain ⟨rfl, blames⟩ := refuses e left run
      exact ⟨sound.settles_refl.unchanged sound, fun _ => ⟨rfl, blames⟩⟩
  | false =>
      refine ⟨?_, fun _ left run => ?_, fun e left run => ?_⟩
      · simp only [sound.rotateParity_several nonempty inside single, exists_and_left, exists_eq,
          and_true, if_neg Bool.false_ne_true]
      · obtain ⟨within, -, -, rfl⟩ := (sound.rotateParity_several nonempty inside single).mp run
        exact sound.replaced_rotateParity within
      · exact ⟨(sound.rotateParity_several_error nonempty inside single run).unchanged sound, nofun⟩

/-- With qubit 1 twice as a control, the parity of qubit 0 is not rotated, that
of qubits 0 and 2 is. -/
theorem parity_rotated_repeated_control :
    ∃ reg left : Register ℝ, create 3 0 exactConfig 0 = .ok reg ∧
      (rotateParity [1, 1] 1 (1 / 2)).runOn reg = (.error (.repeatedQubit 1), reg) ∧
      (rotateParity [1, 1] 5 (1 / 2)).runOn reg = (.ok (), left) ∧
        ParityRotated reg [1, 1] 5 (1 / 2) left := by
  obtain ⟨reg, made, ready, width, config, factory, represented⟩ :=
    exists_ready_of_basis 3 (by decide) (Nat.two_pow_pos 3)
  have narrow : reg.width ≤ exactConfig.denseLimit := by
    rw [width]
    decide
  have expands := expands_of_narrow config factory narrow [.parity]
  have nonzero : ∃ index < 2 ^ reg.width, reg.represented index ≠ 0 := by
    refine ⟨0, Nat.two_pow_pos _, ?_⟩
    rw [represented 0 (by decide), if_pos rfl]
    exact Amplitude.one_ne_zero
  have one : BasisIndex.isPower 1 = true := BasisIndex.isPower_power 0
  have five : BasisIndex.isPower 5 = false := by decide
  obtain ⟨accepts, -, refuses⟩ := parity_rotated ready.reachable one_ne_zero
    (show 1 < 2 ^ reg.width by rw [width]; decide) [1, 1] (1 / 2)
  obtain ⟨accepts', rotated, -⟩ := parity_rotated ready.reachable (show 5 ≠ 0 by decide)
    (show 5 < 2 ^ reg.width by rw [width]; decide) [1, 1] (1 / 2)
  have refused :
      (rotateParity [1, 1] 1 (1 / 2)).runOn reg = (.error (.repeatedQubit 1), reg) := by
    generalize (rotateParity [1, 1] 1 (1 / 2)).runOn reg = result at accepts refuses ⊢
    obtain ⟨_ | _, last⟩ := result
    · obtain ⟨rfl, blames⟩ := (refuses _ _ rfl).2 one
      rw [width, show BasisIndex.highestSet 1 = 0 from BasisIndex.highestSet_power 0] at blames
      cases blames with
      | outside member outside =>
          have small : ∀ qubit ∈ [0, 1, 1], qubit ≤ 1 := by decide
          exact absurd (outside.trans (small _ member)) (by decide)
      | repeated member => rw [(List.mem_pair.mp member).elim id id]
    · obtain ⟨-, apart⟩ := accepts.mp ⟨last, rfl⟩
      rw [if_pos one] at apart
      exact absurd apart.1 (by decide)
  obtain ⟨left, run⟩ := accepts'.mpr ⟨by simp [width], by
    rw [five]
    exact ⟨expands, nonzero⟩⟩
  exact ⟨reg, left, made, refused, run, rotated (fun single => by simp [five] at single) left run⟩

end AmplitudeTree.Register
