import AmplitudeTree.Proofs.Register.Refusal
import AmplitudeTree.Register.Exchange

/-!
# Requested gates

The exchanges are sequences of controlled gates.  What an exchange checks before the first of them is
what each gate of the sequence asks for, so a request that fails has not begun.
-/

namespace AmplitudeTree.Register

open AmplitudeTree.Action

variable {R : Type} [Scalar R]

section Steps

variable {width target first second : ℕ} {controls : List ℕ} {reg left : Register R}

/-! ## Sequences -/

structure GateStep (R : Type) where
  controls : List ℕ
  value : Bool
  gate : Gate R
  target : ℕ

namespace GateStep

def action (step : GateStep R) : Action R Unit :=
  applyWhere step.controls step.value step.gate step.target

def single (gate : Gate R) (target : ℕ) : GateStep R := ⟨[], true, gate, target⟩

def negation (control target : ℕ) : GateStep R := ⟨[control], true, .pauliX, target⟩

end GateStep

/-- Steps taken in turn, every one of which returns. -/
inductive Taken : Register R → List (GateStep R) → Register R → Prop where
  | done (reg : Register R) : Taken reg [] reg
  | step {reg next left : Register R} {step : GateStep R} {steps : List (GateStep R)}
      (returns : step.action.runOn reg = (.ok (), next)) (rest : Taken next steps left) :
      Taken reg (step :: steps) left

theorem Taken.append {next : Register R} {steps more : List (GateStep R)}
    (taken : Taken reg steps next) (rest : Taken next more left) : Taken reg (steps ++ more) left := by
  induction taken with
  | done => exact rest
  | step returns _ ih => exact .step returns (ih rest)

/-- A step is refused, or it keeps the width. -/
theorem GateStep.keeps_width (step : GateStep R) (reg : Register R) :
    Outcome reg [step.target] step.controls (fun left => left.width = reg.width)
      (step.action.runOn reg) :=
  applyWhere_outcome step.controls step.value step.gate step.target reg

theorem GateStep.outcome (step : GateStep R) (reg : Register R) :
    Outcome reg [step.target] step.controls (Taken reg [step]) (step.action.runOn reg) := by
  have keeps := step.keeps_width reg
  generalize run : step.action.runOn reg = result at keeps ⊢
  cases keeps with
  | refused blames => exact .refused blames
  | @taken left usable => exact .taken usable (.step run (.done left))

theorem Taken.width_eq {steps : List (GateStep R)} (taken : Taken reg steps left) :
    left.width = reg.width := by
  induction taken with
  | done => rfl
  | @step reg next _ step _ returns _ ih =>
      have keeps := step.keeps_width reg
      rw [returns] at keeps
      cases keeps with
      | taken _ width => exact ih.trans width

/-- On registers of the given width an action takes the given steps, and no more. -/
def Carries (width : ℕ) (action : Action R Unit) (steps : List (GateStep R)) : Prop :=
  ∀ reg : Register R, reg.width = width →
    ∃ left, Taken reg steps left ∧ action.runOn reg = (.ok (), left)

variable {action rest : Action R Unit} {steps more : List (GateStep R)}

theorem Carries.nothing (width : ℕ) : Carries width (pure () : Action R Unit) [] :=
  fun reg _ => ⟨reg, .done reg, rfl⟩

theorem Carries.bind (carries : Carries width action steps) (follows : Carries width rest more) :
    Carries width (action >>= fun _ => rest) (steps ++ more) := by
  intro reg wide
  obtain ⟨next, taken, returns⟩ := carries reg wide
  obtain ⟨left, later, finishes⟩ := follows next (taken.width_eq.trans wide)
  exact ⟨left, taken.append later, (runOn_bind_of_ok returns _).trans finishes⟩

/-- An action that is refused only on other qubits takes its steps. -/
theorem Carries.of_outcome {targets : List ℕ} (usable : ¬Unusable width targets controls)
    (outcome : ∀ reg : Register R, reg.width = width →
      Outcome reg targets controls (Taken reg steps) (action.runOn reg)) :
    Carries width action steps := by
  intro reg wide
  have outcome := outcome reg wide
  generalize run : action.runOn reg = result at outcome
  cases outcome with
  | refused blames => exact absurd (wide ▸ blames.unusable) usable
  | @taken left _ taken => exact ⟨left, taken, rfl⟩

/-- A step with usable qubits is taken on every register of this width. -/
theorem Carries.step (step : GateStep R) (usable : ¬Unusable width [step.target] step.controls) :
    Carries width step.action [step] :=
  .of_outcome usable fun reg _ => step.outcome reg

theorem usable_single (inside : target < width) : ¬Unusable width [target] [] :=
  usable_iff.mpr (by simpa using inside)

theorem usable_pair {control : ℕ} (inside : target < width) (controlInside : control < width)
    (different : control ≠ target) : ¬Unusable width [target] [control] :=
  usable_iff.mpr (by simp [inside, controlInside, different])

/-! ## Exchanges -/

/-- The steps on two qubits, of which there are none if the qubits are the same one. -/
def ifDistinct (first second : ℕ) (steps : List (GateStep R)) : List (GateStep R) :=
  if first = second then [] else steps

def swapSteps (first second : ℕ) : List (GateStep R) :=
  [.negation first second, .negation second first, .negation first second]

def iSwapSteps (gate : Gate R) (first second : ℕ) : List (GateStep R) :=
  swapSteps first second ++
    [⟨[first], true, .diagonal 1 (-1), second⟩, .single gate first, .single gate second]

def unequalSteps (controls : List ℕ) (gate : Gate R) (first second : ℕ) : List (GateStep R) :=
  [.negation second first, ⟨controls ++ [first], true, gate, second⟩, .negation second first]

def fermionicSteps (mixing phase : R) (first second : ℕ) : List (GateStep R) :=
  (if Scalar.same mixing 0 then [] else
    [.negation first second, ⟨[second], true, .rotateX (Scalar.two * mixing), first⟩,
      .negation first second]) ++
  if Scalar.same phase 0 then [] else [⟨[first], true, .diagonal 1 (.ofPolar 1 (-phase)), second⟩]

/-- An action on two qubits is refused unless both lie in the register; on equal
ones it does nothing. -/
theorem onPair_outcome (reg : Register R)
    (carries : first < reg.width → second < reg.width → first ≠ second →
      Carries reg.width action steps) :
    Outcome reg [first, second] [] (Taken reg (ifDistinct first second steps))
      ((onPair first second action).runOn reg) := by
  rw [onPair, runOn_bind, runOn_check]
  have onFirst := checkQubit_judges reg first
  cases checkedFirst : reg.checkQubit first with
  | error e =>
      rw [checkedFirst] at onFirst
      exact .refused (onFirst.mono (by simp))
  | ok _ =>
      dsimp only
      rw [runOn_bind, runOn_check]
      have onSecond := checkQubit_judges reg second
      cases checkedSecond : reg.checkQubit second with
      | error e =>
          rw [checkedSecond] at onSecond
          exact .refused (onSecond.mono (by simp))
      | ok _ =>
          have inside := checkQubit_eq_ok.mp checkedFirst
          have inside' := checkQubit_eq_ok.mp checkedSecond
          have usable : ¬Unusable reg.width [first, second] [] :=
            usable_iff.mpr (by simp [inside, inside'])
          dsimp only
          by_cases same : first = second
          · rw [if_pos (by rwa [beq_iff_eq]), ifDistinct, if_pos same]
            exact .taken usable (.done reg)
          · rw [if_neg (by rwa [beq_iff_eq]), ifDistinct, if_neg same]
            obtain ⟨left, taken, run⟩ := carries inside inside' same reg rfl
            rw [run]
            exact .taken usable taken

theorem Carries.onPair (carries : Carries width action steps) (inside : first < width)
    (inside' : second < width) (different : first ≠ second) :
    Carries width (onPair first second action) steps := by
  have usable : ¬Unusable width [first, second] [] :=
    usable_iff.mpr (by simp [inside, inside'])
  refine .of_outcome usable ?_
  rintro reg rfl
  have outcome : Outcome reg [first, second] [] (Taken reg (ifDistinct first second steps)) _ :=
    onPair_outcome reg fun _ _ _ => carries
  rwa [ifDistinct, if_neg different] at outcome

section Distinct

variable (inside : first < width) (inside' : second < width) (different : first ≠ second)
include inside inside' different

theorem carries_negations : Carries (R := R) width
    (do cnot first second; cnot second first; cnot first second) (swapSteps first second) :=
  have forward := Carries.step (.negation first second)
    (usable_pair inside' inside different)
  forward.bind ((Carries.step _ (usable_pair inside inside' different.symm)).bind forward)

theorem carries_swap : Carries (R := R) width (swap first second) (swapSteps first second) :=
  (carries_negations inside inside' different).onPair inside inside' different

theorem carries_iSwap (gate : Gate R) :
    Carries width
      (do swap first second; controlledZ first second; apply gate first; apply gate second)
      (iSwapSteps gate first second) :=
  (carries_swap inside inside' different).bind
    ((Carries.step _ (usable_pair inside' inside different)).bind
      ((Carries.step (.single gate first) (usable_single inside)).bind
        (Carries.step (.single gate second) (usable_single inside'))))

theorem carries_unequal (gate : Gate R) (apart : ¬Unusable width [second] (controls ++ [first])) :
    Carries width
      (do
        cnot second first
        applyControlled (controls ++ [first]) gate second
        cnot second first)
      (unequalSteps controls gate first second) :=
  have backward := Carries.step (.negation second first)
    (usable_pair inside inside' different.symm)
  backward.bind ((Carries.step _ apart).bind backward)

theorem carries_fermionic (mixing phase : R) :
    Carries width
      (do
        if !Scalar.same mixing 0 then
          cnot first second
          applyControlled [second] (.rotateX (Scalar.two * mixing)) first
          cnot first second
        if !Scalar.same phase 0 then
          applyControlled [first] (.diagonal 1 (.ofPolar 1 (-phase))) second)
      (fermionicSteps mixing phase first second) := by
  have forward := Carries.step (R := R) (.negation first second)
    (usable_pair inside' inside different)
  have turn : Carries width
      (if (!Scalar.same phase 0) = true then
        applyControlled [first] (.diagonal 1 (.ofPolar 1 (-phase))) second else pure ())
      (if Scalar.same phase 0 then [] else
        [⟨[first], true, .diagonal 1 (.ofPolar 1 (-phase)), second⟩]) := by
    cases Scalar.same phase 0 with
    | true => exact .nothing width
    | false => exact .step _ (usable_pair inside' inside different)
  unfold fermionicSteps
  cases Scalar.same mixing 0 with
  | true => exact turn
  | false =>
      exact forward.bind ((Carries.step _ (usable_pair inside inside' different.symm)).bind
        (forward.bind turn))

end Distinct

theorem usable_both (usable : ¬Unusable width [first] controls)
    (usable' : ¬Unusable width [second] controls) : ¬Unusable width [first, second] controls := by
  obtain ⟨inside, within, nodup, apart⟩ := usable_iff.mp usable
  obtain ⟨inside', -, -, apart'⟩ := usable_iff.mp usable'
  simp only [List.mem_singleton, forall_eq] at inside inside' apart apart'
  exact usable_iff.mpr ⟨by simp [inside, inside'], within, nodup, fun control member => by
    simp [apart control member, apart' control member]⟩

theorem usable_joined (usable : ¬Unusable width [first, second] controls)
    (different : first ≠ second) : ¬Unusable width [second] (controls ++ [first]) := by
  obtain ⟨inside, within, nodup, apart⟩ := usable_iff.mp usable
  simp only [List.mem_cons, List.not_mem_nil, or_false, forall_eq_or_imp, forall_eq, not_or]
    at inside apart
  refine usable_iff.mpr ⟨by simpa using inside.2, ?_, ?_, ?_⟩
  · simp only [List.mem_append, List.mem_singleton]
    rintro control (member | rfl)
    · exact within control member
    · exact inside.1
  · exact List.nodup_append.mpr ⟨nodup, List.nodup_singleton first, fun control member other same =>
      by rw [List.mem_singleton.mp same]; exact (apart control member).1⟩
  · simp only [List.mem_append, List.mem_singleton]
    rintro control (member | rfl)
    · exact (apart control member).2
    · exact different

/-- An action on `01` and `10` is refused unless both qubits can have the controls; on equal ones it
does nothing. -/
theorem onUnequal_outcome (controls : List ℕ) (gate : Gate R) (first second : ℕ)
    (reg : Register R) :
    Outcome reg [first, second] controls
      (Taken reg (ifDistinct first second (unequalSteps controls gate first second)))
      ((onUnequal controls gate first second).runOn reg) := by
  rw [onUnequal, runOn_bind, runOn_get]
  dsimp only
  rw [runOn_bind, runOn_ofExcept]
  have onFirst := checkGate_judges reg controls true first
  cases checkedFirst : reg.checkGate controls true first with
  | error e =>
      rw [checkedFirst] at onFirst
      exact .refused (onFirst.mono (by simp))
  | ok _ =>
      dsimp only
      rw [runOn_bind, runOn_ofExcept]
      have onSecond := checkGate_judges reg controls true second
      cases checkedSecond : reg.checkGate controls true second with
      | error e =>
          rw [checkedSecond] at onSecond
          exact .refused (onSecond.mono (by simp))
      | ok _ =>
          rw [checkedFirst] at onFirst
          rw [checkedSecond] at onSecond
          have usable := usable_both onFirst onSecond
          dsimp only
          by_cases same : first = second
          · rw [if_pos (by rwa [beq_iff_eq]), ifDistinct, if_pos same]
            exact .taken usable (.done reg)
          · rw [if_neg (by rwa [beq_iff_eq]), ifDistinct, if_neg same]
            have inside := (usable_iff.mp usable).1
            obtain ⟨left, taken, run⟩ := carries_unequal (inside first (by simp))
              (inside second (by simp)) same gate (usable_joined usable same) reg rfl
            rw [run]
            exact .taken usable taken

end Steps

/-! ## Requests -/

/-- A request for a gate; one without a name of its own is `single` or `controlled`. -/
inductive GateRequest (R : Type) where
  | single (gate : Gate R) (target : ℕ)
  | controlled (controls : List ℕ) (value : Bool) (gate : Gate R) (target : ℕ)
  | cnot (control target : ℕ)
  | antiCnot (control target : ℕ)
  | controlledY (control target : ℕ)
  | controlledZ (control target : ℕ)
  | toffoli (first second target : ℕ)
  | swap (first second : ℕ)
  | iSwap (first second : ℕ)
  | iSwapInverse (first second : ℕ)
  | sqrtSwap (controls : List ℕ) (first second : ℕ)
  | sqrtSwapInverse (controls : List ℕ) (first second : ℕ)
  | controlledSwap (controls : List ℕ) (first second : ℕ)
  | fermionic (mixing phase : R) (first second : ℕ)

namespace GateRequest

def action : GateRequest R → Action R Unit
  | single gate target => apply gate target
  | controlled controls value gate target => applyWhere controls value gate target
  | cnot control target => Register.cnot control target
  | antiCnot control target => Register.antiCnot control target
  | controlledY control target => Register.controlledY control target
  | controlledZ control target => Register.controlledZ control target
  | toffoli first second target => Register.toffoli first second target
  | swap first second => Register.swap first second
  | iSwap first second => Register.iSwap first second
  | iSwapInverse first second => Register.iSwapInverse first second
  | sqrtSwap controls first second => Register.sqrtSwap controls first second
  | sqrtSwapInverse controls first second => Register.sqrtSwapInverse controls first second
  | controlledSwap controls first second => Register.controlledSwap controls first second
  | fermionic mixing phase first second => Register.fermionic mixing phase first second

def targets : GateRequest R → List ℕ
  | single _ target | controlled _ _ _ target | cnot _ target | antiCnot _ target
  | controlledY _ target | controlledZ _ target | toffoli _ _ target => [target]
  | swap first second | iSwap first second | iSwapInverse first second
  | sqrtSwap _ first second | sqrtSwapInverse _ first second | controlledSwap _ first second
  | fermionic _ _ first second => [first, second]

def controls : GateRequest R → List ℕ
  | controlled controls _ _ _ | sqrtSwap controls _ _ | sqrtSwapInverse controls _ _
  | controlledSwap controls _ _ => controls
  | cnot control _ | antiCnot control _ | controlledY control _ | controlledZ control _ => [control]
  | toffoli first second _ => [first, second]
  | _ => []

def steps : GateRequest R → List (GateStep R)
  | single gate target => [.single gate target]
  | controlled controls value gate target => [⟨controls, value, gate, target⟩]
  | cnot control target => [.negation control target]
  | antiCnot control target => [⟨[control], false, .pauliX, target⟩]
  | controlledY control target => [⟨[control], true, .pauliY, target⟩]
  | controlledZ control target => [⟨[control], true, .diagonal 1 (-1), target⟩]
  | toffoli first second target => [⟨[first, second], true, .pauliX, target⟩]
  | swap first second => ifDistinct first second (swapSteps first second)
  | iSwap first second => ifDistinct first second (iSwapSteps .phaseS first second)
  | iSwapInverse first second => ifDistinct first second (iSwapSteps .phaseSInverse first second)
  | sqrtSwap controls first second =>
      ifDistinct first second (unequalSteps controls .sqrtX first second)
  | sqrtSwapInverse controls first second =>
      ifDistinct first second (unequalSteps controls .sqrtXInverse first second)
  | controlledSwap controls first second =>
      ifDistinct first second
        (if controls.isEmpty then swapSteps first second
          else unequalSteps controls .pauliX first second)
  | fermionic mixing phase first second =>
      ifDistinct first second (fermionicSteps mixing phase first second)

theorem outcome (request : GateRequest R) (reg : Register R) :
    Outcome reg request.targets request.controls (Taken reg request.steps)
      (request.action.runOn reg) := by
  cases request with
  | single gate target => exact (GateStep.single gate target).outcome reg
  | controlled controls value gate target =>
      exact GateStep.outcome ⟨controls, value, gate, target⟩ reg
  | cnot control target => exact (GateStep.negation control target).outcome reg
  | antiCnot control target => exact GateStep.outcome ⟨[control], false, .pauliX, target⟩ reg
  | controlledY control target => exact GateStep.outcome ⟨[control], true, .pauliY, target⟩ reg
  | controlledZ control target =>
      exact GateStep.outcome ⟨[control], true, .diagonal 1 (-1), target⟩ reg
  | toffoli first second target =>
      exact GateStep.outcome ⟨[first, second], true, .pauliX, target⟩ reg
  | swap first second => exact onPair_outcome reg carries_negations
  | iSwap first second =>
      exact onPair_outcome reg fun inside inside' different =>
        carries_iSwap inside inside' different .phaseS
  | iSwapInverse first second =>
      exact onPair_outcome reg fun inside inside' different =>
        carries_iSwap inside inside' different .phaseSInverse
  | sqrtSwap controls first second => exact onUnequal_outcome controls .sqrtX first second reg
  | sqrtSwapInverse controls first second =>
      exact onUnequal_outcome controls .sqrtXInverse first second reg
  | controlledSwap controls first second =>
      rw [action, Register.controlledSwap, steps]
      split
      · next none =>
          obtain rfl := List.isEmpty_iff.mp none
          exact onPair_outcome reg carries_negations
      · exact onUnequal_outcome controls .pauliX first second reg
  | fermionic mixing phase first second =>
      exact onPair_outcome reg fun inside inside' different =>
        carries_fermionic inside inside' different mixing phase

end GateRequest

/-- A request is refused just if its qubits are unusable, with an error that names one, and leaves
the register as it was.  Otherwise it and each of its steps return. -/
theorem gateRequest_refused_iff (request : GateRequest R) (reg : Register R) :
    ((∃ e, (request.action.runOn reg).1 = .error e) ↔
      Unusable reg.width request.targets request.controls) ∧
    (∀ e left, request.action.runOn reg = (.error e, left) →
      left = reg ∧ Blames reg.width request.targets request.controls e) ∧
    (¬Unusable reg.width request.targets request.controls →
      ∃ left, request.action.runOn reg = (.ok (), left) ∧ Taken reg request.steps left) := by
  have outcome := request.outcome reg
  generalize request.action.runOn reg = run at outcome ⊢
  cases outcome with
  | refused blames =>
      refine ⟨iff_of_true ⟨_, rfl⟩ blames.unusable, ?_, fun usable => ?_⟩
      · rintro e left ⟨⟩
        exact ⟨rfl, blames⟩
      · exact absurd blames.unusable usable
  | @taken left usable taken =>
      refine ⟨iff_of_false nofun usable, ?_, fun _ => ⟨left, rfl, taken⟩⟩
      rintro e left ⟨⟩

/-- An exchange is refused if its control is one of the exchanged qubits, and runs
with another control. -/
theorem controlledSwap_refused_and_taken :
    ∃ reg left : Register ℝ, create 3 0 exactConfig 0 = .ok reg ∧
      (controlledSwap [1] 0 1).runOn reg = (.error (.repeatedQubit 1), reg) ∧
      (controlledSwap [2] 0 1).runOn reg = (.ok (), left) ∧
      Taken reg (unequalSteps [2] .pauliX 0 1) left := by
  obtain ⟨reg, made⟩ : ∃ reg, create 3 0 exactConfig 0 = .ok reg :=
    exists_create validate_exactConfig (by decide) rfl 0
  have width : reg.width = 3 := by
    obtain ⟨-, -, generator, rfl⟩ := eq_of_create made
    rfl
  obtain ⟨refuses, clean, -⟩ := gateRequest_refused_iff (.controlledSwap [1] 0 1) reg
  obtain ⟨-, -, runs⟩ := gateRequest_refused_iff (.controlledSwap [2] 0 1) reg
  obtain ⟨left, run, taken⟩ := runs (usable_iff.mpr (by
    simp [GateRequest.targets, GateRequest.controls, width]))
  obtain ⟨e, fails⟩ := refuses.mpr (.inr (.inr ⟨1, by
    simp [GateRequest.targets, GateRequest.controls]⟩))
  obtain ⟨same, blames⟩ := clean e _ (Prod.ext fails rfl)
  have named : e = .repeatedQubit 1 := by
    cases blames with
    | outside member outside =>
        rw [width] at outside
        simp [GateRequest.targets, GateRequest.controls] at member
        omega
    | repeated member => rw [List.mem_singleton.mp member]
  exact ⟨reg, left, made, Prod.ext (named ▸ fails) same, run, taken⟩

end AmplitudeTree.Register
