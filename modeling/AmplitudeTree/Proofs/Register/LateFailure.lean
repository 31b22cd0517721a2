import AmplitudeTree.Proofs.Register.Arithmetic

/-!
# Arithmetic that fails after a measurement

Some arithmetic calls measure a carry qubit, or the range that a table look-up writes, before they
run on a state vector.  A call of any kind spoils the state of its register just in case it measures,
the measurement changes the state, and what follows fails.
-/

namespace AmplitudeTree.Register

open AmplitudeTree.Action
open AmplitudeTree.StateVector (Direction ModularFunction Sign)
open AmplitudeTree.Tree (projected)

variable {α β : Type} {reg left : Register ℝ} {range argument value : QubitRange} {carry : ℕ}
  {overflow : Option ℕ} {table : Array UInt8}

/-! ## Failures that spoil the state -/

/-- Wherever the action fails on the register, the represented amplitudes are what they were. -/
def FailsCleanly (action : Action ℝ α) (reg : Register ℝ) : Prop :=
  ∀ e left, action.runOn reg = (.error e, left) → left.width = reg.width ∧
    ∀ index < 2 ^ reg.width, left.represented index = reg.represented index

def Changes (action : Action ℝ α) (reg : Register ℝ) : Prop :=
  ∃ index < 2 ^ reg.width, (action.runOn reg).2.represented index ≠ reg.represented index

/-- What can go wrong once a call has begun to measure. -/
def FailsLate (measurement : Action ℝ α) (accepted : Prop) (reg : Register ℝ) : Prop :=
  Fails measurement reg ∨ reg.Refuses ∨ ¬ accepted ∨
    ∀ index < 2 ^ reg.width, (measurement.runOn reg).2.represented index = 0

theorem Traceless.failsCleanly {action : Action ℝ α} (traceless : Traceless action)
    (sound : reg.Sound) : FailsCleanly action reg := by
  intro e left run
  have settles := traceless sound run
  exact ⟨settles.width, fun index _ => settles.represented sound index⟩

theorem failsCleanly_of_ok {action : Action ℝ α} {a : α} (run : action.runOn reg = (.ok a, left)) :
    FailsCleanly action reg :=
  fun _ _ failed => absurd (congrArg Prod.fst (run.symm.trans failed)) nofun

/-- An action fails cleanly if it fails cleanly once a check has passed. -/
theorem failsCleanly_check_iff (condition : Register ℝ → Except (RegisterError ℝ) Unit)
    (x : Action ℝ α) : FailsCleanly (check condition >>= fun _ => x) reg ↔
      (condition reg = .ok () → FailsCleanly x reg) := by
  unfold FailsCleanly
  rw [runOn_bind, runOn_check]
  cases condition reg with
  | ok _ => exact ⟨fun clean _ => clean, fun clean => clean rfl⟩
  | error e =>
      refine iff_of_true ?_ nofun
      rintro e' left run
      cases run
      exact ⟨rfl, fun _ _ => rfl⟩

theorem failsCleanly_ite_iff {p : Prop} [Decidable p] (x : Action ℝ Unit) :
    FailsCleanly (if p then x else pure ()) reg ↔ (p → FailsCleanly x reg) := by
  split
  · next yes => exact ⟨fun clean _ => clean, fun clean => clean yes⟩
  · next no => exact iff_of_true (failsCleanly_of_ok (runOn_pure () reg)) fun yes => absurd yes no

theorem fails_bind_pure_iff (x : Action ℝ α) (g : α → β) :
    Fails (x >>= fun a => pure (g a)) reg ↔ Fails x reg := by
  unfold Fails
  rw [runOn_bind_pure]
  cases (x.runOn reg).1 with
  | ok a => exact iff_of_false nofun nofun
  | error e => exact iff_of_true ⟨e, rfl⟩ ⟨e, rfl⟩

theorem failsCleanly_bind_pure_iff (x : Action ℝ α) (g : α → β) :
    FailsCleanly (x >>= fun a => pure (g a)) reg ↔ FailsCleanly x reg := by
  have run := runOn_bind_pure x g reg
  cases ran : x.runOn reg with
  | mk result left =>
      rw [ran] at run
      cases result with
      | ok a => exact iff_of_true (failsCleanly_of_ok run) (failsCleanly_of_ok ran)
      | error e =>
          unfold FailsCleanly
          rw [run, ran]
          constructor
          · intro clean e' left' run
            cases run
            exact clean e left rfl
          · intro clean e' left' run
            cases run
            exact clean e left rfl

/-- What a measurement returns does not matter for the damage it does. -/
theorem changes_and_failsLate_bind_pure_iff (x : Action ℝ α) (g : α → β) (accepted : Prop) :
    Changes (x >>= fun a => pure (g a)) reg ∧ FailsLate (x >>= fun a => pure (g a)) accepted reg ↔
      Changes x reg ∧ FailsLate x accepted reg := by
  unfold Changes FailsLate
  rw [fails_bind_pure_iff, runOn_bind_pure]

/-- After a measurement, an action without a trace spoils the state if the measurement changes it
and something goes wrong. -/
theorem Sound.failsCleanly_bind_iff (sound : reg.Sound) {x : Action ℝ α} {f : α → Action ℝ β}
    (keeps : Keeps x) (traceless : ∀ a, Traceless (f a)) {accepted : Prop}
    (fails : ∀ a left, Retains reg left → (Fails (f a) left ↔
      left.Refuses ∨ ¬ accepted ∨ ∀ index < 2 ^ left.width, left.represented index = 0)) :
    FailsCleanly (x >>= f) reg ↔ ¬ (Changes x reg ∧ FailsLate x accepted reg) := by
  have retains := keeps reg sound
  have run := runOn_bind x f reg
  unfold Changes FailsLate Fails
  generalize x.runOn reg = measured at retains run ⊢
  obtain ⟨result, left⟩ := measured
  cases result with
  | error e =>
      constructor
      · rintro clean ⟨⟨index, bound, differs⟩, _⟩
        exact differs ((clean e left run).2 index bound)
      · intro spared e' left' failed
        cases run.symm.trans failed
        refine ⟨retains.width, fun index bound => ?_⟩
        by_contra differs
        exact spared ⟨⟨index, bound, differs⟩, Or.inl ⟨e, rfl⟩⟩
  | ok a =>
      have late : Fails (f a) left ↔
          reg.Refuses ∨ ¬ accepted ∨ ∀ index < 2 ^ reg.width, left.represented index = 0 := by
        rw [fails a left retains, Refuses, retains.factory, retains.width, ← Refuses]
      have returned : ¬ ∃ e, (Except.ok a : Except (RegisterError ℝ) α) = .error e := by
        rintro ⟨e, same⟩
        cases same
      rw [← late, or_iff_right returned]
      cases ran : (f a).runOn left with
      | mk result last =>
          replace run := run.trans ran
          cases result with
          | error e =>
              have settles := traceless a retains.sound ran
              have failed : Fails (f a) left := ⟨e, congrArg Prod.fst ran⟩
              constructor
              · rintro clean ⟨⟨index, bound, differs⟩, _⟩
                refine differs ((settles.represented retains.sound index).symm.trans ?_)
                exact (clean e last run).2 index bound
              · intro spared e' last' error
                cases run.symm.trans error
                refine ⟨settles.width.trans retains.width, fun index bound => ?_⟩
                by_contra differs
                rw [settles.represented retains.sound] at differs
                exact spared ⟨⟨index, bound, differs⟩, failed⟩
          | ok b =>
              refine iff_of_true (failsCleanly_of_ok run) ?_
              rintro ⟨_, e, failed⟩
              cases (congrArg Prod.fst ran).symm.trans failed

/-! ## Arithmetic calls -/

inductive ArithmeticCall where
  | add (addend : ℕ) (range : QubitRange) (controls : List ℕ)
  | subtract (subtrahend : ℕ) (range : QubitRange) (controls : List ℕ)
  | addCarry (addend : ℕ) (range : QubitRange) (carry : ℕ)
  | addWithCarry (addend : ℕ) (range : QubitRange) (carry : ℕ)
  | subtractWithBorrow (subtrahend : ℕ) (range : QubitRange) (carry : ℕ)
  | addSigned (addend : ℕ) (range : QubitRange) (overflow : ℕ)
  | subtractSigned (subtrahend : ℕ) (range : QubitRange) (overflow : ℕ)
  | addSignedCarry (addend : ℕ) (range : QubitRange) (overflow : Option ℕ) (carry : ℕ)
  | addSignedWithCarry (addend : ℕ) (range : QubitRange) (overflow : Option ℕ) (carry : ℕ)
  | subtractSignedWithBorrow (subtrahend : ℕ) (range : QubitRange) (overflow : Option ℕ)
      (carry : ℕ)
  | addDecimal (addend : ℕ) (range : QubitRange)
  | subtractDecimal (subtrahend : ℕ) (range : QubitRange)
  | addDecimalCarry (addend : ℕ) (range : QubitRange) (carry : ℕ)
  | addDecimalWithCarry (addend : ℕ) (range : QubitRange) (carry : ℕ)
  | subtractDecimalWithBorrow (subtrahend : ℕ) (range : QubitRange) (carry : ℕ)
  | multiply (direction : Direction) (factor start high length : ℕ) (controls : List ℕ)
  | modularOut (direction : Direction) (f : ModularFunction) (modulus input output length : ℕ)
      (controls : List ℕ)
  | negateBelow (bound : ℕ) (range : QubitRange) (flag : Option ℕ)
  | load (argument value : QubitRange) (table : Array UInt8) (reset : Bool)
  | combine (sign : Sign) (argument value : QubitRange) (carry : ℕ) (table : Array UInt8)
  | substitute (range : QubitRange) (table : Array UInt8)

namespace ArithmeticCall

noncomputable def run : ArithmeticCall → Action ℝ Unit
  | add addend range controls => Register.add addend range controls
  | subtract subtrahend range controls => Register.subtract subtrahend range controls
  | addCarry addend range carry => Register.addCarry addend range carry
  | addWithCarry addend range carry => Register.addWithCarry addend range carry
  | subtractWithBorrow subtrahend range carry => Register.subtractWithBorrow subtrahend range carry
  | addSigned addend range overflow => Register.addSigned addend range overflow
  | subtractSigned subtrahend range overflow => Register.subtractSigned subtrahend range overflow
  | addSignedCarry addend range overflow carry =>
      Register.addSignedCarry addend range overflow carry
  | addSignedWithCarry addend range overflow carry =>
      Register.addSignedWithCarry addend range overflow carry
  | subtractSignedWithBorrow subtrahend range overflow carry =>
      Register.subtractSignedWithBorrow subtrahend range overflow carry
  | addDecimal addend range => Register.addDecimal addend range
  | subtractDecimal subtrahend range => Register.subtractDecimal subtrahend range
  | addDecimalCarry addend range carry => Register.addDecimalCarry addend range carry
  | addDecimalWithCarry addend range carry => Register.addDecimalWithCarry addend range carry
  | subtractDecimalWithBorrow subtrahend range carry =>
      Register.subtractDecimalWithBorrow subtrahend range carry
  | multiply direction factor start high length controls =>
      Register.multiply direction factor start high length controls
  | modularOut direction f modulus input output length controls =>
      Register.modularOut direction f modulus input output length controls
  | negateBelow bound range flag => Register.negateBelow bound range flag
  | load argument value table reset => do
      let _ ← Register.load argument value table reset
  | combine sign argument value carry table => do
      let _ ← Register.combine sign argument value carry table
  | substitute range table => Register.substitute range table

noncomputable def measurement : ArithmeticCall → Action ℝ Unit
  | addWithCarry _ _ carry | subtractWithBorrow _ _ carry
  | addSignedWithCarry _ _ _ carry | subtractSignedWithBorrow _ _ _ carry
  | addDecimalWithCarry _ _ carry | subtractDecimalWithBorrow _ _ carry => do
      let _ ← takeCarry carry
  | load _ value _ true => prepareRange value 0
  | _ => return

/-- The call passes the checks that come before its measurement, and does measure. -/
def Measures (reg : Register ℝ) : ArithmeticCall → Prop
  | addWithCarry _ range carry | subtractWithBorrow _ range carry
  | addDecimalWithCarry _ range carry | subtractDecimalWithBorrow _ range carry =>
      reg.checkCarry range carry = .ok () ∧ range.length ≠ 0
  | addSignedWithCarry _ range overflow carry
  | subtractSignedWithBorrow _ range overflow carry =>
      reg.checkCarry range carry = .ok () ∧ checkOverflow overflow reg = .ok () ∧
        range.length ≠ 0
  | load argument value table true => checkLookup argument value table reg = .ok ()
  | _ => False

/-- What a state vector demands of the call and no check before the measurement does. -/
def Accepted : ArithmeticCall → Prop
  | addSignedWithCarry _ range overflow carry
  | subtractSignedWithBorrow _ range overflow carry =>
      ∀ qubit ∈ overflow, range.contains qubit = false ∧ qubit ≠ carry
  | addDecimalWithCarry _ range _ | subtractDecimalWithBorrow _ range _ => range.length % 4 = 0
  | load argument value _ _ => argument.length ≠ 0 ∧ value.length ≠ 0
  | _ => True

end ArithmeticCall

/-! ## Calls without a measurement -/

theorem traceless_add (addend : ℕ) (range : QubitRange) (controls : List ℕ) :
    Traceless (add addend range controls : Action ℝ Unit) :=
  traceless_onRange (Traceless.query_bind _ fun _ => traceless_withArithmetic _)

theorem traceless_addCarry (addend : ℕ) (range : QubitRange) (carry : ℕ) :
    Traceless (addCarry addend range carry : Action ℝ Unit) :=
  traceless_onRange (Traceless.query_bind _ fun _ => traceless_withArithmetic _)

theorem traceless_addSigned (addend : ℕ) (range : QubitRange) (overflow : ℕ) :
    Traceless (addSigned addend range overflow : Action ℝ Unit) :=
  traceless_onRange (Traceless.query_bind _ fun _ => traceless_withArithmetic _)

theorem traceless_addSignedCarry (addend : ℕ) (range : QubitRange) (overflow : Option ℕ)
    (carry : ℕ) : Traceless (addSignedCarry addend range overflow carry : Action ℝ Unit) :=
  traceless_onRange (Traceless.query_bind _ fun _ => traceless_withArithmetic _)

theorem traceless_addDecimal (addend : ℕ) (range : QubitRange) :
    Traceless (addDecimal addend range : Action ℝ Unit) :=
  traceless_onRange (Traceless.query_bind _ fun _ => traceless_withArithmetic _)

theorem traceless_addDecimalCarry (addend : ℕ) (range : QubitRange) (carry : ℕ) :
    Traceless (addDecimalCarry addend range carry : Action ℝ Unit) :=
  traceless_onRange (Traceless.query_bind _ fun _ => traceless_withArithmetic _)

/-! ## Calls with a measurement -/

theorem keeps_takeCarry (carry : ℕ) : Keeps (takeCarry carry : Action ℝ Bool) := by
  refine (keeps_measureQubit carry none true).bind fun set => ?_
  exact Keeps.ite ((keeps_apply _ _).bind fun _ => Keeps.pure _) (Keeps.pure _)

theorem runOn_takeCarry {set : Bool} (run : (measure carry).runOn reg = (.ok set, left))
    (inside : carry < left.width) : (takeCarry carry).runOn reg =
      (.ok set, if set then left.waiting .pauliX carry else left) := by
  have rest : (takeCarry carry).runOn reg = _ := runOn_bind_of_ok run _
  rw [rest]
  cases set with
  | false => rfl
  | true =>
      have flipped : (apply .pauliX carry).runOn left = (.ok (), left.waiting .pauliX carry) := by
        rw [runOn_apply, if_pos inside]
      exact runOn_bind_of_ok flipped _

/-- Once a carry has been taken, its qubit is clear. -/
theorem Sound.takeCarry_cases (sound : reg.Sound) (unitary : reg.pending.Unitary)
    (inside : carry < reg.width) :
    ∃ outcome,
      (∃ e left, (takeCarry carry).runOn reg = (.error e, left) ∧
        projected carry outcome reg.state = 0) ∨
      ∃ left, (takeCarry carry).runOn reg = (.ok outcome, left) ∧ left.Sound ∧
        ∀ bits, bits carry = true → left.state bits = 0 := by
  obtain ⟨outcome, ⟨left, run, empty⟩ | ⟨left, run, retains, -, waits, only⟩⟩ :=
    sound.measure_cases inside
  · exact ⟨outcome, Or.inl ⟨_, left, runOn_bind_of_error run _, empty⟩⟩
  · have within : carry < left.width := inside.trans_eq retains.width.symm
    refine ⟨outcome, Or.inr ⟨_, runOn_takeCarry run within, ?_⟩⟩
    have cut (bits : Assignment) (differs : bits carry ≠ outcome) : left.state bits = 0 := by
      rw [← only]
      exact if_neg differs
    cases outcome with
    | false =>
        refine ⟨retains.sound, fun bits set => cut bits ?_⟩
        rw [set]
        exact Bool.noConfusion
    | true =>
        have stays : left.pending.Unitary := by
          intro q gate found
          rcases waits q with same | free
          · exact unitary q gate (same.symm.trans found)
          · rw [free] at found
            cases found
        obtain ⟨_, acts⟩ := retains.sound.waiting_state stays Gate.pauliX_isUnitary within
        refine ⟨retains.sound.waiting _ _, fun bits set => ?_⟩
        rw [if_pos rfl, acts, Gate.act_pauliX, set]
        exact cut _ (by rw [Function.update_self]; exact Bool.noConfusion)

/-- An operator with carry spoils the state if measuring its carry changes it and
what follows fails. -/
theorem Sound.failsCleanly_onCarry_iff (sound : reg.Sound)
    {extra : Register ℝ → Except (RegisterError ℝ) Unit} {action : Bool → Action ℝ Unit}
    {accepted : Prop} (traceless : ∀ set, Traceless (action set))
    (fails : ∀ set left, Prepared left range carry → extra reg = .ok () → Retains reg left →
      (Fails (action set) left ↔
        left.Refuses ∨ ¬ accepted ∨ ∀ index < 2 ^ left.width, left.represented index = 0)) :
    FailsCleanly (onCarry range carry extra action) reg ↔
      ¬ ((reg.checkCarry range carry = .ok () ∧ extra reg = .ok () ∧ range.length ≠ 0) ∧
        Changes (do let _ ← takeCarry carry : Action ℝ Unit) reg ∧
        FailsLate (do let _ ← takeCarry carry : Action ℝ Unit) accepted reg) := by
  rw [changes_and_failsLate_bind_pure_iff, onCarry, failsCleanly_check_iff, failsCleanly_check_iff,
    failsCleanly_ite_iff, bne_iff_ne, not_and, and_imp, and_imp]
  refine forall₃_congr fun passes extraPasses nonempty => ?_
  have prepared := prepared_iff.mp ⟨passes, nonempty⟩
  exact sound.failsCleanly_bind_iff (keeps_takeCarry carry) traceless fun set left retains =>
    fails set left (prepared.retains retains) extraPasses retains

theorem Sound.failsCleanly_onCarry_noExtra_iff (sound : reg.Sound) {action : Bool → Action ℝ Unit}
    {accepted : Prop} (traceless : ∀ set, Traceless (action set))
    (fails : ∀ set left, Prepared left range carry → left.Sound → (Fails (action set) left ↔
      left.Refuses ∨ ¬ accepted ∨ ∀ index < 2 ^ left.width, left.represented index = 0)) :
    FailsCleanly (onCarry range carry noExtra action) reg ↔
      ¬ ((reg.checkCarry range carry = .ok () ∧ range.length ≠ 0) ∧
        Changes (do let _ ← takeCarry carry : Action ℝ Unit) reg ∧
        FailsLate (do let _ ← takeCarry carry : Action ℝ Unit) accepted reg) := by
  have passes : noExtra reg = .ok () := rfl
  rw [sound.failsCleanly_onCarry_iff traceless fun set left prepared _ retains =>
    fails set left prepared retains.sound, and_iff_right passes]

/-- A look-up that clears its range spoils the state if this changes it and what follows fails. -/
theorem Sound.failsCleanly_load_iff (sound : reg.Sound) :
    FailsCleanly (load argument value table true) reg ↔
      ¬ (checkLookup argument value table reg = .ok () ∧
        Changes (prepareRange value 0) reg ∧
        FailsLate (prepareRange value 0) (argument.length ≠ 0 ∧ value.length ≠ 0) reg) := by
  change FailsCleanly (check (checkLookup argument value table) >>= fun _ =>
    prepareRange value 0 >>= fun _ => withResult (·.load argument value table)) reg ↔ _
  rw [failsCleanly_check_iff, not_and]
  refine forall_congr' fun passes => ?_
  have prepared := lookupPrepared_iff.mp passes
  exact sound.failsCleanly_bind_iff (keeps_prepareRange value 0)
    (fun _ => traceless_withVector _ _) fun _ left retains =>
      (prepared.retains retains).fails_iff retains.sound

theorem lt_width_of_checkOverflow (passes : checkOverflow overflow reg = .ok ()) :
    ∀ qubit ∈ overflow, qubit < reg.width := by
  rintro qubit ⟨⟩
  exact checkQubit_eq_ok.mp passes

/-- An arithmetic call that fails keeps the represented amplitudes unless it measures, the
measurement changes them, and something goes wrong after it has begun. -/
theorem arithmetic_error_keeps_state_iff (reachable : Reachable reg) (call : ArithmeticCall) :
    (∀ e left, call.run.runOn reg = (.error e, left) → left.width = reg.width ∧
      ∀ index < 2 ^ reg.width, left.represented index = reg.represented index) ↔
    ¬ (call.Measures reg ∧ Changes call.measurement reg ∧
      FailsLate call.measurement call.Accepted reg) := by
  have sound := reachable.sound
  change FailsCleanly call.run reg ↔ _
  have free {x : Action ℝ Unit} {p : Prop} (traceless : Traceless x) :
      FailsCleanly x reg ↔ ¬ (False ∧ p) :=
    iff_of_true (traceless.failsCleanly sound) fun impossible => impossible.1
  cases call with
  | add addend range controls => exact free (traceless_add addend range controls)
  | subtract subtrahend range controls => exact free (traceless_add _ range controls)
  | addCarry addend range carry => exact free (traceless_addCarry addend range carry)
  | addWithCarry addend range carry =>
      exact sound.failsCleanly_onCarry_noExtra_iff (fun _ => traceless_addCarry _ range carry)
        fun _ _ prepared sound => prepared.fails_addCarry_iff sound _
  | subtractWithBorrow subtrahend range carry =>
      exact sound.failsCleanly_onCarry_noExtra_iff (fun _ => traceless_addCarry _ range carry)
        fun _ _ prepared sound => prepared.fails_addCarry_iff sound _
  | addSigned addend range overflow => exact free (traceless_addSigned addend range overflow)
  | subtractSigned subtrahend range overflow => exact free (traceless_addSigned _ range overflow)
  | addSignedCarry addend range overflow carry =>
      exact free (traceless_addSignedCarry addend range overflow carry)
  | addSignedWithCarry addend range overflow carry =>
      exact sound.failsCleanly_onCarry_iff (fun _ => traceless_addSignedCarry _ range overflow carry)
        fun _ _ prepared inside retains => prepared.fails_addSignedCarry_iff retains.sound
          (retains.width ▸ lt_width_of_checkOverflow inside) _
  | subtractSignedWithBorrow subtrahend range overflow carry =>
      exact sound.failsCleanly_onCarry_iff (fun _ => traceless_addSignedCarry _ range overflow carry)
        fun _ _ prepared inside retains => prepared.fails_addSignedCarry_iff retains.sound
          (retains.width ▸ lt_width_of_checkOverflow inside) _
  | addDecimal addend range => exact free (traceless_addDecimal addend range)
  | subtractDecimal subtrahend range =>
      exact free (Traceless.check_bind _ (traceless_addDecimal _ range))
  | addDecimalCarry addend range carry => exact free (traceless_addDecimalCarry addend range carry)
  | addDecimalWithCarry addend range carry =>
      exact sound.failsCleanly_onCarry_noExtra_iff (fun _ => traceless_addDecimalCarry _ range carry)
        fun _ _ prepared sound => prepared.fails_addDecimalCarry_iff sound _
  | subtractDecimalWithBorrow subtrahend range carry =>
      exact sound.failsCleanly_onCarry_noExtra_iff (fun _ => traceless_addDecimalCarry _ range carry)
        fun _ _ prepared sound => prepared.fails_addDecimalCarry_iff sound _
  | multiply direction factor start high length controls =>
      exact free (traceless_onRange (Traceless.query_bind _ fun _ => traceless_withArithmetic _))
  | modularOut direction f modulus input output length controls =>
      exact free (traceless_onRange (Traceless.query_bind _ fun _ =>
        Traceless.query_bind _ fun _ => traceless_withArithmetic _))
  | negateBelow bound range flag =>
      exact free (Traceless.check_bind _ (Traceless.query_bind _ fun _ =>
        traceless_withArithmetic _))
  | load argument value table reset =>
      cases reset with
      | false =>
          refine free (Traceless.bind_pure (Traceless.check_bind _ ?_) _)
          exact traceless_withVector _ _
      | true =>
          exact (failsCleanly_bind_pure_iff _ _).trans sound.failsCleanly_load_iff
  | combine sign argument value carry table =>
      exact free (Traceless.bind_pure (Traceless.check_bind _ (traceless_withVector _ _)) _)
  | substitute range table => exact free (traceless_onRange (traceless_withArithmetic _))

/-- A carry qubit in superposition is measured before the range turns out to hold no whole digit. -/
theorem addDecimalWithCarry_measures :
    ∃ reg left : Register ℝ, create 3 0 exactConfig 0 = .ok reg ∧
      (∃ e, (addDecimalWithCarry 0 ⟨0, 2⟩ 2).runOn (reg.waiting .hadamard 2) = (.error e, left)) ∧
      ∃ index < 2 ^ 3, left.represented index ≠ (reg.waiting .hadamard 2).represented index := by
  obtain ⟨reg, made⟩ : ∃ reg, create 3 0 exactConfig 0 = .ok reg :=
    exists_create validate_exactConfig (by decide) rfl 0
  obtain ⟨sound, waits, width, state⟩ := sound_of_create made rfl
  have inside : 2 < reg.width := by rw [width]; decide
  obtain ⟨unitary, acts⟩ := sound.waiting_state waits Gate.hadamard_isUnitary inside
  have reachable : Reachable (reg.waiting .hadamard 2) := by
    have step := (Reachable.create rfl made).gate [] true .hadamard 2
    change Reachable ((apply .hadamard 2).runOn reg).2 at step
    rwa [runOn_apply, if_pos inside] at step
  have prepared : Prepared (reg.waiting .hadamard 2) ⟨0, 2⟩ 2 := by
    obtain ⟨_, _, _, rfl⟩ := eq_of_create made
    exact ⟨rfl, checkDense_eq_ok.mpr (show 3 ≤ exactConfig.denseLimit by decide), by decide,
      (show 2 ≤ 3 by decide), (show 2 < 3 by decide), rfl⟩
  have amplitude (value : Bool) :
      (reg.waiting .hadamard 2).state (fun q => decide (q = 2) && value) ≠ 0 := by
    have one : reg.state (Function.update (fun q => decide (q = 2) && value) 2 false) = 1 := by
      rw [state, Tree.basisState, if_pos]
      intro q _ _
      by_cases same : q = 2 <;> simp [same]
    have none : reg.state (Function.update (fun q => decide (q = 2) && value) 2 true) = 0 := by
      rw [state, Tree.basisState, if_neg]
      intro clear
      simpa using clear 2 (by decide) (by decide)
    rw [acts, Gate.act, one, none]
    exact Gate.mixed_hadamard_ne_zero _
  have changes : Changes (do let _ ← takeCarry 2 : Action ℝ Unit) (reg.waiting .hadamard 2) := by
    obtain ⟨outcome, ⟨_, _, _, empty⟩ | ⟨left, run, leftSound, clear⟩⟩ :=
      (sound.waiting .hadamard 2).takeCarry_cases unitary inside
    · refine absurd ?_ (amplitude outcome)
      have here := congrFun empty fun q => decide (q = 2) && outcome
      rwa [projected, if_pos (by simp)] at here
    · have bits : Nat.testBit 4 = fun q => decide (q = 2) && true := by
        funext q
        rw [show 4 = 2 ^ 2 from rfl, Nat.testBit_two_pow, Bool.and_true]
        exact decide_eq_decide.mpr eq_comm
      refine ⟨4, (show 4 < 2 ^ reg.width by rw [width]; decide), fun same => amplitude true ?_⟩
      rw [runOn_bind_pure, run] at same
      rw [← bits, ← (sound.waiting .hadamard 2).toComplex_represented, ← same,
        leftSound.toComplex_represented]
      exact clear _ rfl
  have keeps : Keeps (addDecimalWithCarry 0 ⟨0, 2⟩ 2 : Action ℝ Unit) :=
    (Keeps.check _).bind fun _ => (Keeps.check _).bind fun _ => Keeps.ite
      ((keeps_takeCarry _).bind fun _ => (Keeps.check _).bind fun _ =>
        Keeps.ite ((Keeps.query _).bind fun _ => keeps_withVector _ _) (Keeps.pure _))
      (Keeps.pure _)
  have late : FailsLate (do let _ ← takeCarry 2 : Action ℝ Unit) (2 % 4 = 0)
      (reg.waiting .hadamard 2) := Or.inr (Or.inr (Or.inl (by decide)))
  have spoils := mt (arithmetic_error_keeps_state_iff reachable (.addDecimalWithCarry 0 ⟨0, 2⟩ 2)).mp
    (not_not.mpr ⟨prepared_iff.mpr prepared, changes, late⟩)
  push Not at spoils
  obtain ⟨e, left, run, spoilt⟩ := spoils
  have retains := keeps _ (sound.waiting .hadamard 2)
  have ran : (addDecimalWithCarry 0 ⟨0, 2⟩ 2).runOn (reg.waiting .hadamard 2) = (.error e, left) := run
  rw [ran] at retains
  obtain ⟨index, bound, differs⟩ := spoilt retains.width
  exact ⟨reg, left, made, ⟨e, ran⟩, index, width ▸ bound, differs⟩

end AmplitudeTree.Register
