import AmplitudeTree.Proofs.Register.Reachable
import AmplitudeTree.Proofs.StateVector.Reversible
import AmplitudeTree.Register.Arithmetic

/-!
# Arithmetic on the state vector of a register

Whatever runs on the state vector of a register fails without a trace.  The operators that come
after a measurement fail if the factory refuses the register, the state vector refuses the operands
or no amplitude is left; nothing else goes wrong with them.
-/

namespace AmplitudeTree.Register

open AmplitudeTree.Action
open StateVector (Carried ReversibleCall)

variable {α β : Type} {reg left : Register ℝ} {range argument value : QubitRange} {carry : ℕ}
  {overflow : Option ℕ} {table : Array UInt8}

/-! ## Failing without a trace -/

def Fails (action : Action ℝ α) (reg : Register ℝ) : Prop := ∃ e, (action.runOn reg).1 = .error e

/-- Where the action fails, it has done no more than to settle waiting gates. -/
def Traceless (action : Action ℝ α) : Prop :=
  ∀ {reg left e}, reg.Sound → action.runOn reg = (.error e, left) → Settles reg left

section Rules

variable {x : Action ℝ α}

theorem Traceless.pure (a : α) : Traceless (pure a : Action ℝ α) := nofun

theorem Traceless.query_bind (answer : Register ℝ → Except (RegisterError ℝ) β)
    {f : β → Action ℝ α} (rest : ∀ b, Traceless (f b)) : Traceless (query answer >>= f) := by
  intro reg left e sound run
  rw [runOn_bind, runOn_query] at run
  cases answered : answer reg with
  | ok b =>
      rw [answered] at run
      exact rest b sound run
  | error e =>
      rw [answered] at run
      cases run
      exact sound.settles_refl

theorem Traceless.check_bind (condition : Register ℝ → Except (RegisterError ℝ) Unit)
    (rest : Traceless x) : Traceless (check condition >>= fun _ => x) :=
  Traceless.query_bind condition fun _ => rest

theorem Traceless.ite {y : Action ℝ α} {p : Prop} [Decidable p] (yes : Traceless x)
    (no : Traceless y) : Traceless (if p then x else y) := by
  split
  · exact yes
  · exact no

theorem Traceless.bind_pure (traceless : Traceless x) (g : α → β) :
    Traceless (x >>= fun a => Pure.pure (g a)) := by
  intro reg left e sound run
  rw [runOn_bind] at run
  split at run
  · cases run
  · next failed =>
      cases run
      exact traceless sound failed

end Rules

/-- The operators of a state vector fail without a trace. -/
theorem traceless_withVector (required : List OperatorSet)
    (op : StateVector ℝ → Except VectorError (α × StateVector ℝ)) :
    Traceless (withVector required op) := by
  intro reg left e sound run
  cases offered : reg.checkOperators required with
  | error e =>
      rw [withVector, toVector, runOn_bind, runOn_bind, runOn_check, offered] at run
      cases run
      exact sound.settles_refl
  | ok _ =>
      cases dense : reg.checkDense with
      | error e =>
          have refused : (toVector required).runOn reg = (.error e, reg) := by
            rw [toVector, runOn_bind, runOn_check, offered]
            dsimp only
            rw [runOn_bind, runOn_check, dense]
          rw [withVector, runOn_bind_of_error refused] at run
          cases run
          exact sound.settles_refl
      | ok _ =>
          by_cases refuses : reg.Refuses
          · rw [withVector, runOn_bind, sound.runOn_toVector offered dense, if_pos refuses] at run
            cases run
            exact sound.settles_listed
          · rw [sound.runOn_withVector offered dense refuses] at run
            split at run
            · cases run
              exact sound.settles_listed
            · split at run
              · cases run
                exact sound.settles_listed
              · cases run

theorem traceless_withArithmetic (op : StateVector ℝ → Except VectorError (StateVector ℝ)) :
    Traceless (withArithmetic op) := traceless_withVector _ _

theorem traceless_onRange {action : Action ℝ Unit} (rest : Traceless action) :
    Traceless (onRange range action) :=
  Traceless.check_bind _ (Traceless.ite rest (Traceless.pure ()))

/-! ## What a state vector refuses -/

theorem width_vector (reg : Register ℝ) : reg.vector.width = reg.width := rfl

theorem size_vector (reg : Register ℝ) : reg.vector.amplitudes.size = 2 ^ reg.vector.width :=
  Array.size_ofFn

theorem amplitudeD_vector {index : BasisIndex} (below : index < 2 ^ reg.width) :
    reg.vector.amplitudeD index = reg.represented index := by
  rw [StateVector.amplitudeD, vector, Array.getElem?_ofFn, dif_pos below, Option.getD_some]

theorem vanishes_vector_iff :
    reg.vector.Vanishes ↔ ∀ index < 2 ^ reg.width, reg.represented index = 0 := by
  rw [StateVector.Vanishes, size_vector, width_vector]
  refine forall₂_congr fun index below => ?_
  rw [amplitudeD_vector below, ← Amplitude.toComplex_zero]
  exact Amplitude.toComplex_injective.eq_iff

/-- A rearrangement fails if the factory refuses the register, the operands are refused or no
amplitude is left. -/
theorem Sound.fails_withVector_iff (sound : reg.Sound) {required : List OperatorSet}
    (offered : reg.checkOperators required = .ok ()) (dense : reg.checkDense = .ok ())
    {op : StateVector ℝ → Except VectorError (α × StateVector ℝ)} {accepted : Prop}
    (accepts : accepted → ∃ a v f negate, op reg.vector = .ok (a, v) ∧
      reg.vector.Rearranges v f negate)
    (rejects : ¬ accepted → ∃ e, op reg.vector = .error e) :
    Fails (withVector required op) reg ↔
      reg.Refuses ∨ ¬ accepted ∨ ∀ index < 2 ^ reg.width, reg.represented index = 0 := by
  by_cases refuses : reg.Refuses
  · refine iff_of_true ?_ (Or.inl refuses)
    rw [Fails, withVector, runOn_bind, sound.runOn_toVector offered dense, if_pos refuses]
    exact ⟨_, rfl⟩
  · rw [or_iff_right refuses, Fails, sound.runOn_withVector offered dense refuses,
      ← vanishes_vector_iff]
    by_cases fits : accepted
    · obtain ⟨a, v, f, negate, ran, rearranges⟩ := accepts fits
      rw [or_iff_right (not_not.mpr fits), ran, ← rearranges.vanishes_iff,
        StateVector.vanishes_iff_all, ← sound.threshold_eq]
      dsimp only
      split
      · next vanishes => exact iff_of_true ⟨_, rfl⟩ vanishes
      · next some =>
          refine iff_of_false ?_ some
          rintro ⟨e, failed⟩
          cases failed
    · obtain ⟨e, failed⟩ := rejects fits
      rw [failed]
      exact iff_of_true ⟨_, rfl⟩ (Or.inl fits)

/-! ## Carried ranges -/

/-- The conditions that an operator with carry checks before it measures. -/
structure Prepared (reg : Register ℝ) (range : QubitRange) (carry : ℕ) : Prop where
  offered : reg.checkOperators [.arithmetic] = .ok ()
  dense : reg.checkDense = .ok ()
  carried : Carried range carry reg.width

theorem prepared_iff :
    reg.checkCarry range carry = .ok () ∧ range.length ≠ 0 ↔ Prepared reg range carry := by
  have apart : (if range.contains carry then throw (.repeatedQubit carry) else pure () :
      Except (RegisterError ℝ) Unit) = .ok () ↔ range.contains carry = false := by
    cases range.contains carry
    · exact iff_of_true rfl rfl
    · exact iff_of_false nofun nofun
  rw [checkCarry, checks_eq_ok, checks_eq_ok, checks_eq_ok, checks_eq_ok, apart,
    checkRange_eq_ok, checkQubit_eq_ok]
  constructor
  · rintro ⟨⟨offered, dense, inside, below, outside⟩, nonempty⟩
    exact ⟨offered, dense, nonempty, inside, below, outside⟩
  · rintro ⟨offered, dense, nonempty, inside, below, outside⟩
    exact ⟨⟨offered, dense, inside, below, outside⟩, nonempty⟩

theorem Prepared.retains (prepared : Prepared reg range carry) (retains : Retains reg left) :
    Prepared left range carry := by
  obtain ⟨offered, dense, carried⟩ := prepared
  refine ⟨?_, ?_, retains.width ▸ carried⟩
  · rwa [checkOperators, retains.factory]
  · rwa [checkDense, retains.width, retains.config]

theorem Prepared.operandWord_eq (prepared : Prepared reg range carry) (sound : reg.Sound)
    {operand : ℕ} (below : operand < 2 * range.span) (width : ℕ) :
    (operandWord operand width : Except (RegisterError ℝ) ℕ) = .ok operand := by
  have narrow : range.length + 1 ≤ reg.width := by
    obtain ⟨nonempty, inside, within, outside⟩ := prepared.carried
    rw [← Bool.not_eq_true, QubitRange.contains_iff, not_and, not_lt] at outside
    rw [QubitRange.stop] at inside outside
    omega
  have word : range.length + 1 < BasisIndex.wordBits :=
    (narrow.trans (checkDense_eq_ok.mp prepared.dense)).trans_lt (denseLimit_lt sound.admitted)
  have fits : operand < 2 ^ BasisIndex.wordBits := by
    refine below.trans_le ?_
    rw [QubitRange.span, ← pow_succ']
    exact Nat.pow_le_pow_right two_pos word.le
  rw [operandWord, BasisIndex.checkWord, if_pos fits]
  rfl

theorem Prepared.runOn_onRange (prepared : Prepared reg range carry) (action : Action ℝ Unit) :
    (onRange range action).runOn reg = action.runOn reg := by
  rw [onRange, runOn_bind, runOn_check, checkRange_eq_ok.mpr prepared.carried.inside]
  simp only [bne_iff_ne.mpr prepared.carried.nonempty, if_true]

theorem Prepared.runOn_withArithmetic (prepared : Prepared reg range carry) (sound : reg.Sound)
    (op : ℕ → StateVector ℝ → Except VectorError (StateVector ℝ)) {operand : ℕ}
    (below : operand < 2 * range.span) (width : ℕ) :
    (onRange range do
      let operand ← query fun _ => operandWord operand width
      withArithmetic (op operand)).runOn reg = (withArithmetic (op operand)).runOn reg := by
  rw [prepared.runOn_onRange, runOn_bind, runOn_query, prepared.operandWord_eq sound below]

/-- A reversible call fails just in case the factory refuses the register, the call its operands or
no amplitude is left. -/
theorem Prepared.fails_iff (prepared : Prepared reg range carry) (sound : reg.Sound)
    (call : ℕ → ReversibleCall) {operand : ℕ} (below : operand < 2 * range.span) (width : ℕ) :
    Fails (onRange range do
        let operand ← query fun _ => operandWord operand width
        withArithmetic fun v => (call operand).run v) reg ↔
      reg.Refuses ∨ ¬ (call operand).Accepts reg.width ∨
        ∀ index < 2 ^ reg.width, reg.represented index = 0 := by
  rw [Fails, prepared.runOn_withArithmetic sound (fun operand v => (call operand).run v) below]
  refine sound.fails_withVector_iff prepared.offered prepared.dense (fun accepts => ?_)
    fun refuses => ?_
  · obtain ⟨v, ran, rearranges⟩ := ReversibleCall.exists_run (size_vector reg) accepts
    exact ⟨(), v, _, _, bind_eq_ok.mpr ⟨v, ran, rfl⟩, rearranges⟩
  · obtain ⟨e, failed⟩ := ReversibleCall.exists_error (v := reg.vector) refuses
    exact ⟨e, congrArg (· >>= _) failed⟩

theorem Prepared.fails_addCarry_iff (prepared : Prepared reg range carry) (sound : reg.Sound)
    (addend : ℕ) : Fails (addCarry addend range carry) reg ↔
      reg.Refuses ∨ ¬ True ∨ ∀ index < 2 ^ reg.width, reg.represented index = 0 := by
  have accepts : Carried range carry reg.width ↔ True := iff_true_intro prepared.carried
  rw [← accepts]
  exact prepared.fails_iff sound (.addCarry · range carry)
    (Nat.mod_lt _ (Nat.mul_pos two_pos range.span_pos)) _

theorem Prepared.fails_addSignedCarry_iff (prepared : Prepared reg range carry) (sound : reg.Sound)
    (below : ∀ qubit ∈ overflow, qubit < reg.width) (addend : ℕ) :
    Fails (addSignedCarry addend range overflow carry) reg ↔
      reg.Refuses ∨ ¬ (∀ qubit ∈ overflow, range.contains qubit = false ∧ qubit ≠ carry) ∨
        ∀ index < 2 ^ reg.width, reg.represented index = 0 := by
  have accepts : (∀ qubit ∈ overflow, range.contains qubit = false ∧ qubit ≠ carry) ↔
      Carried range carry reg.width ∧
        ∀ qubit ∈ overflow, qubit < reg.width ∧ range.contains qubit = false ∧ qubit ≠ carry := by
    rw [and_iff_right prepared.carried]
    exact forall₂_congr fun qubit given => (and_iff_right (below qubit given)).symm
  rw [accepts]
  exact prepared.fails_iff sound (.addSignedCarry · range overflow carry)
    (Nat.mod_lt _ (Nat.mul_pos two_pos range.span_pos)) _

theorem decimalSpan_le (range : QubitRange) : decimalSpan range ≤ range.span :=
  calc 10 ^ (range.length / 4) ≤ 16 ^ (range.length / 4) := Nat.pow_le_pow_left (by decide) _
    _ = 2 ^ (4 * (range.length / 4)) := (pow_mul 2 4 _).symm
    _ ≤ 2 ^ range.length := Nat.pow_le_pow_right two_pos (Nat.mul_div_le _ _)

theorem mod_decimalSpan_lt (addend : ℕ) (range : QubitRange) :
    addend % (2 * decimalSpan range) < 2 * range.span :=
  have positive : 0 < 2 * decimalSpan range := Nat.mul_pos two_pos (Nat.pow_pos (by decide))
  (Nat.mod_lt _ positive).trans_le (Nat.mul_le_mul_left 2 (decimalSpan_le range))

theorem Prepared.fails_addDecimalCarry_iff (prepared : Prepared reg range carry) (sound : reg.Sound)
    (addend : ℕ) : Fails (addDecimalCarry addend range carry) reg ↔
      reg.Refuses ∨ ¬ range.length % 4 = 0 ∨
        ∀ index < 2 ^ reg.width, reg.represented index = 0 := by
  have accepts : range.length % 4 = 0 ↔ Carried range carry reg.width ∧ range.length % 4 = 0 :=
    (and_iff_right prepared.carried).symm
  rw [accepts]
  exact prepared.fails_iff sound (.addDecimalCarry · range carry) (mod_decimalSpan_lt addend range) _

/-! ## Table look-up -/

structure LookupPrepared (reg : Register ℝ) (argument value : QubitRange) (table : Array UInt8) :
    Prop where
  offered : reg.checkOperators [.arithmetic] = .ok ()
  dense : reg.checkDense = .ok ()
  inside : argument.stop ≤ reg.width
  valueInside : value.stop ≤ reg.width
  disjoint : argument.Disjoint value
  entries : StateVector.checkTable table argument.span value.length = .ok ()

theorem lookupPrepared_iff :
    checkLookup argument value table reg = .ok () ↔ LookupPrepared reg argument value table := by
  have entries : (StateVector.checkTable table argument.span value.length).mapError
      (RegisterError.vector (R := ℝ)) = .ok () ↔
        StateVector.checkTable table argument.span value.length = .ok () := by
    cases StateVector.checkTable table argument.span value.length
    · exact iff_of_false nofun nofun
    · exact iff_of_true rfl rfl
  rw [checkLookup, checks_eq_ok, checks_eq_ok, checks_eq_ok, checks_eq_ok, checkRange_eq_ok,
    checkRange_eq_ok]
  dsimp only
  constructor
  · rintro ⟨offered, dense, inside, valueInside, passes⟩
    split at passes
    · cases passes
    · next apart =>
        exact ⟨offered, dense, inside, valueInside, QubitRange.disjoint_iff_not_lt.mpr apart,
          entries.mp passes⟩
  · rintro ⟨offered, dense, inside, valueInside, disjoint, fits⟩
    rw [if_neg (QubitRange.disjoint_iff_not_lt.mp disjoint)]
    exact ⟨offered, dense, inside, valueInside, entries.mpr fits⟩

theorem LookupPrepared.retains (prepared : LookupPrepared reg argument value table)
    (retains : Retains reg left) : LookupPrepared left argument value table where
  offered := by rw [checkOperators, retains.factory]; exact prepared.offered
  dense := by rw [checkDense, retains.width, retains.config]; exact prepared.dense
  inside := retains.width ▸ prepared.inside
  valueInside := retains.width ▸ prepared.valueInside
  disjoint := prepared.disjoint
  entries := prepared.entries

theorem LookupPrepared.fails_iff (prepared : LookupPrepared reg argument value table)
    (sound : reg.Sound) : Fails (withResult (·.load argument value table)) reg ↔
      reg.Refuses ∨ ¬ (argument.length ≠ 0 ∧ value.length ≠ 0) ∨
        ∀ index < 2 ^ reg.width, reg.represented index = 0 := by
  have accepts : (ReversibleCall.load argument value table).Accepts reg.width ↔
      argument.length ≠ 0 ∧ value.length ≠ 0 := by
    have entries := StateVector.ReversibleCall.checkTable_eq_ok.mp prepared.entries
    constructor
    · rintro ⟨nonempty, -, valueNonempty, -⟩
      exact ⟨nonempty, valueNonempty⟩
    · rintro ⟨nonempty, valueNonempty⟩
      exact ⟨nonempty, prepared.inside, valueNonempty, prepared.valueInside, prepared.disjoint,
        entries⟩
  refine sound.fails_withVector_iff prepared.offered prepared.dense (fun nonempty => ?_)
    fun empty => ?_
  · obtain ⟨v, ran, rearranges⟩ :=
      ReversibleCall.exists_run (size_vector reg) (accepts.mpr nonempty)
    obtain ⟨mean, returned⟩ := StateVector.Update.changed_eq_ok.mp ran
    exact ⟨mean, v, _, _, returned, rearranges⟩
  · obtain ⟨e, failed⟩ :=
      ReversibleCall.exists_error (v := reg.vector) fun accepted => empty (accepts.mp accepted)
    exact ⟨e, StateVector.Update.changed_eq_error.mp failed⟩

end AmplitudeTree.Register
