import AmplitudeTree.Proofs.Register.Carry

/-!
# Reversible operators one after the other

A reversible operator that has returned has found a state vector that can be made and an amplitude that
is not zero.  It leaves both, so that the next reversible operator returns as well if its operands are
those of the register.
-/

namespace AmplitudeTree.Register

open AmplitudeTree.Action
open StateVector (ReversibleCall)

variable {reg left last : Register ℝ} {call next : ReversibleCall} {range : QubitRange}
  {controls : List ℕ} {operand overflow width : ℕ}

/-! ## Calls that have returned -/

/-- A reversible call has returned on the state vector of a register. -/
structure Performs (reg : Register ℝ) (call : ReversibleCall) (left : Register ℝ) : Prop
    extends Retains reg left, Moved reg call left where
  expands : Expands reg [.arithmetic]
  accepts : call.Accepts reg.width
  nonzero : ∃ index < 2 ^ reg.width, reg.represented index ≠ 0

theorem Sound.performs (sound : reg.Sound)
    (run : (withArithmetic fun v => call.run v).runOn reg = (.ok (), left)) :
    Performs reg call left := by
  have retains : Retains reg left := by
    have kept := keeps_withVector [.arithmetic] (fun v => return ((), ← call.run v)) reg sound
    rwa [← withArithmetic, run] at kept
  obtain ⟨expands, accepts, nonzero, rfl⟩ := sound.runOn_reversible_eq_ok.mp run
  have moved := sound.moved accepts
  exact ⟨retains, moved.bijOn, moved.represented, expands, accepts, nonzero⟩

theorem Sound.exists_performs (sound : reg.Sound) (expands : Expands reg [.arithmetic])
    (accepts : call.Accepts reg.width) (nonzero : ∃ index < 2 ^ reg.width, reg.represented index ≠ 0) :
    ∃ left, (withArithmetic fun v => call.run v).runOn reg = (.ok (), left) ∧
      Performs reg call left :=
  have run := sound.runOn_reversible_eq_ok.mpr ⟨expands, accepts, nonzero, rfl⟩
  ⟨_, run, sound.performs run⟩

/-- A call returns just in case the vector can be made, the operands are accepted and some amplitude
is not zero. -/
theorem Sound.exists_reversible_iff (sound : reg.Sound) :
    (∃ left, (withArithmetic fun v => call.run v).runOn reg = (.ok (), left)) ↔
      Expands reg [.arithmetic] ∧ call.Accepts reg.width ∧
        ∃ index < 2 ^ reg.width, reg.represented index ≠ 0 := by
  constructor
  · rintro ⟨left, run⟩
    have performs := sound.performs run
    exact ⟨performs.expands, performs.accepts, performs.nonzero⟩
  · rintro ⟨expands, accepts, nonzero⟩
    obtain ⟨left, run, -⟩ := sound.exists_performs expands accepts nonzero
    exact ⟨left, run⟩

namespace Performs

theorem expands_left (performs : Performs reg call left) : Expands left [.arithmetic] := by
  obtain ⟨offered, dense, accepted⟩ := performs.expands
  refine ⟨?_, ?_, ?_⟩
  · rwa [checkOperators, performs.factory]
  · rwa [checkDense, performs.width, performs.config]
  · rwa [Refuses, performs.factory, performs.width]

theorem nonzero_left (performs : Performs reg call left) :
    ∃ index < 2 ^ left.width, left.represented index ≠ 0 := by
  obtain ⟨index, below, nonzero⟩ := performs.nonzero
  refine ⟨call.place index, performs.width ▸ performs.bijOn.mapsTo below, ?_⟩
  exact mt (performs.toMoved.represented_eq_zero_iff below).mp nonzero

theorem exists_next (performs : Performs reg call left) (next : ReversibleCall)
    (accepts : next.Accepts reg.width) :
    ∃ last, (withArithmetic fun v => next.run v).runOn left = (.ok (), last) ∧
      Performs left next last :=
  performs.sound.exists_performs performs.expands_left (performs.width ▸ accepts)
    performs.nonzero_left

/-- Where a call has returned, another one returns in its place. -/
theorem exists_instead (performs : Performs reg call left) (sound : reg.Sound)
    (next : ReversibleCall) (accepts : next.Accepts reg.width) :
    ∃ last, (withArithmetic fun v => next.run v).runOn reg = (.ok (), last) ∧
      Performs reg next last :=
  sound.exists_performs performs.expands accepts performs.nonzero

/-- Amplitudes that have gone through two calls are negated if one of the calls negates them. -/
theorem represented_next (first : Performs reg call left) (second : Performs left next last)
    {index : BasisIndex} (below : index < 2 ^ reg.width) :
    last.represented (next.place (call.place index)) =
      if call.negates index ^^ next.negates (call.place index) then -reg.represented index
      else reg.represented index := by
  have inside : call.place index < 2 ^ left.width := first.width ▸ first.bijOn.mapsTo below
  rw [second.represented _ inside, first.represented index below]
  cases call.negates index <;> cases next.negates (call.place index) <;>
    simp [Amplitude.neg_twice]

end Performs

/-! ## Operators on ranges -/

theorem Sound.length_lt_wordBits (sound : reg.Sound) (dense : reg.checkDense = .ok ())
    (inside : range.stop ≤ reg.width) : range.length < BasisIndex.wordBits :=
  ((Nat.le_add_left _ _).trans inside).trans_lt
    ((checkDense_eq_ok.mp dense).trans_lt (denseLimit_lt sound.admitted))

theorem operandWord_eq_ok {word : ℕ} :
    (operandWord operand width : Except (RegisterError ℝ) ℕ) = .ok word ↔
      operand < 2 ^ BasisIndex.wordBits ∧ operand = word := by
  rw [operandWord, BasisIndex.checkWord]
  split
  · next fits => simp [Except.mapError, fits]
  · next wide => simp [Except.mapError, wide]

/-- An operand that the range can hold reaches the state vector as it is. -/
theorem Sound.runOn_onRange_eq_ok (sound : reg.Sound) (nonempty : range.length ≠ 0)
    (calls : ℕ → ReversibleCall)
    (inside : (calls operand).Accepts reg.width → range.stop ≤ reg.width)
    (below : operand < range.span) :
    (onRange range do
      let operand ← query fun _ => operandWord operand range.length
      withArithmetic fun v => (calls operand).run v).runOn reg = (.ok (), left) ↔
      (withArithmetic fun v => (calls operand).run v).runOn reg = (.ok (), left) := by
  rw [onRange, runOn_check_bind_eq_ok, if_pos (bne_iff_ne.mpr nonempty), runOn_bind_eq_ok]
  constructor
  · rintro ⟨-, word, middle, found, run⟩
    obtain ⟨answered, rfl⟩ := Prod.mk.inj found
    obtain ⟨-, rfl⟩ := operandWord_eq_ok.mp answered
    exact run
  · intro run
    obtain ⟨⟨-, dense, -⟩, accepts, -⟩ := sound.runOn_reversible_eq_ok.mp run
    have within := inside accepts
    have word : operand < 2 ^ BasisIndex.wordBits :=
      below.trans (Nat.pow_lt_pow_right (by decide) (sound.length_lt_wordBits dense within))
    refine ⟨checkRange_eq_ok.mpr within, operand, reg, ?_, run⟩
    rw [runOn_query, operandWord_eq_ok.mpr ⟨word, rfl⟩]

theorem Sound.runOn_add_eq_ok (sound : reg.Sound) (nonempty : range.length ≠ 0) (addend : ℕ) :
    (add addend range controls).runOn reg = (.ok (), left) ↔
      (withArithmetic fun v => (ReversibleCall.add (addend % range.span) range controls).run v).runOn
        reg = (.ok (), left) :=
  sound.runOn_onRange_eq_ok nonempty (.add · range controls) (fun accepts => accepts.2.1)
    (Nat.mod_lt _ range.span_pos)

theorem Sound.runOn_addSigned_eq_ok (sound : reg.Sound) (nonempty : range.length ≠ 0) (addend : ℕ) :
    (addSigned addend range overflow).runOn reg = (.ok (), left) ↔
      (withArithmetic fun v =>
        (ReversibleCall.addSigned (addend % range.span) range overflow).run v).runOn reg =
          (.ok (), left) :=
  sound.runOn_onRange_eq_ok nonempty (.addSigned · range overflow) (fun accepts => accepts.inside)
    (Nat.mod_lt _ range.span_pos)

/-! ## Complements -/

/-- In every range of a register an operand and its complement add up to nothing. -/
theorem add_complement_modEq (narrow : range.length ≤ BasisIndex.maxWidth)
    (word : operand ≤ indexSpan) :
    operand % range.span + complement operand % range.span ≡ 0 [MOD range.span] := by
  have divides : range.span ∣ indexSpan := Nat.pow_dvd_pow 2 narrow
  have whole := (Nat.mod_modEq (indexSpan - operand) indexSpan).add_left operand
  rw [Nat.add_sub_cancel' word] at whole
  exact ((Nat.mod_modEq _ _).add (Nat.mod_modEq _ _)).trans
    ((whole.of_dvd divides).trans (Nat.modEq_zero_iff_dvd.mpr divides))

theorem complement_modEq (narrow : range.length ≤ BasisIndex.maxWidth) (word : operand ≤ indexSpan) :
    (complement operand : ℤ) ≡ -operand [ZMOD range.span] := by
  have nothing : operand + complement operand ≡ 0 [MOD range.span] :=
    (Nat.add_mod ..).trans (add_complement_modEq narrow word)
  have back := Int.natCast_modEq_iff.mpr nothing
  rw [Nat.cast_add, Nat.cast_zero] at back
  simpa using back.sub_right (operand : ℤ)

end AmplitudeTree.Register
