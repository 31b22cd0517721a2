import AmplitudeTree.Proofs.Register.Alike.Measure

/-!
# Outcomes of single measurements

A drawn outcome is 1 just in case the draw is less than the part of the squared norm where the qubit
reads 1, divided by the whole.  An imposed outcome fails just in case this part is zero.  What is left
of the state is its part with the outcome, brought to norm one.
-/

namespace AmplitudeTree

open AmplitudeTree.Action
open AmplitudeTree.Tree (projected)

/-! ## Draws -/

namespace Generator

variable (generator : Generator)

theorem unit_nonneg : 0 ≤ (generator.unit : ℝ × Generator).1 :=
  div_nonneg (Nat.cast_nonneg _) (Nat.cast_nonneg _)

theorem unit_lt_one : (generator.unit : ℝ × Generator).1 < 1 := by
  have small : (generator.word.1 >>> 11).toNat < 2 ^ 53 := by
    have bound := generator.word.1.toNat_lt
    rw [UInt64.toNat_shiftRight]
    simp only [UInt64.reduceToNat, Nat.reduceMod, Nat.shiftRight_eq_div_pow]
    omega
  have positive : (0 : ℝ) < (2 ^ 53 : ℕ) := by norm_num
  exact (div_lt_one positive).mpr (Nat.cast_lt.mpr small)

@[simp]
theorem position_unit {R : Type} [Scalar R] :
    (generator.unit : R × Generator).2.position = generator.position + 1 := rfl

end Generator

namespace Register

variable {reg left : Register ℝ} {qubit : ℕ} {value : Bool}

/-! ## Probabilities -/

noncomputable def chance (reg : Register ℝ) (qubit : ℕ) (value : Bool) : ℝ :=
  mass reg.width (projected qubit value reg.state) / mass reg.width reg.state

theorem chance_nonneg (reg : Register ℝ) (qubit : ℕ) (value : Bool) : 0 ≤ reg.chance qubit value :=
  div_nonneg (mass_nonneg _ _) (mass_nonneg _ _)

theorem Physical.chance_false (physical : reg.Physical) (qubit : ℕ) :
    reg.chance qubit false = 1 - reg.chance qubit true := by
  have total := Tree.mass_projected_add reg.width qubit reg.state
  have nonzero := physical.mass_pos.ne'
  unfold chance
  field_simp
  linear_combination total

theorem Settles.chance_eq (settles : Settles reg left) (qubit : ℕ) (value : Bool) :
    left.chance qubit value = reg.chance qubit value := by
  rw [chance, chance, settles.state, settles.width]

/-- A measurement reads the probability of a value off the tree. -/
theorem Physical.likelihood_settled (physical : reg.Physical) (inside : qubit < reg.width)
    (value : Bool) :
    (reg.settleUnlessDiagonal qubit).likelihood qubit value = reg.chance qubit value := by
  have settles := physical.toSound.settles_settleUnlessDiagonal qubit
  rw [(physical.settles settles).likelihood_eq (physical.toSound.settledOn qubit)
    (inside.trans_eq settles.width.symm) value]
  exact settles.chance_eq qubit value

theorem Physical.runOn_prob (physical : reg.Physical) (inside : qubit < reg.width) :
    (prob qubit).runOn reg = (.ok (reg.chance qubit true), reg.settleUnlessDiagonal qubit) := by
  rw [Register.runOn_prob inside, ← physical.likelihood_settled inside true]
  rfl

/-! ## Collapses -/

/-- The second register is what is left of the first one once a qubit has been found at a value. -/
structure CollapsesTo (reg : Register ℝ) (qubit : ℕ) (value : Bool) (left : Register ℝ) : Prop where
  physical : left.Physical
  width : left.width = reg.width
  proportional : Proportional (projected qubit value reg.state) left.state
  unit : mass reg.width left.state = 1

/-- Gates may be settled before the qubit is measured. -/
theorem CollapsesTo.of_settles {settled : Register ℝ} (settles : Settles reg settled)
    (collapses : settled.CollapsesTo qubit value left) : reg.CollapsesTo qubit value left where
  physical := collapses.physical
  width := collapses.width.trans settles.width
  proportional := settles.state ▸ collapses.proportional
  unit := settles.width ▸ collapses.unit

theorem Physical.collapseTo (physical : reg.Physical) (settled : reg.SettledOn qubit)
    (inside : qubit < reg.width) (possible : projected qubit value reg.state ≠ 0) :
    ∃ left, (collapseTo qubit value).runOn reg = (.ok value, left) ∧
      left.generator = reg.generator ∧ reg.CollapsesTo qubit value left := by
  have kept := physical.collapse_kept settled inside possible
  have retained := physical.toSound.collapsed qubit value
  obtain ⟨collapsed, unit⟩ := physical.collapsed settled inside possible
  have reduced := retained.sound.settles_afterChange
  refine ⟨(reg.collapsed qubit value).afterChange, ?_, rfl, ?_⟩
  · rw [runOn_collapseTo, kept, if_pos rfl]
  · exact
      { physical := collapsed.settles reduced
        width := reduced.width.trans retained.width
        proportional := by
          rw [reduced.state]
          exact physical.collapsed_proportional settled inside kept
        unit := by rw [reduced.state, unit] }

/-! ## Measurements -/

/-- What is drawn or imposed, from the probabilities before any gate is settled. -/
theorem Physical.choice_settled (physical : reg.Physical) (inside : qubit < reg.width)
    (forced : Option Bool) :
    (reg.settleUnlessDiagonal qubit).choice forced ((reg.settleUnlessDiagonal qubit).tree.prob qubit) =
      reg.choice forced (reg.chance qubit true) := by
  have one : (reg.settleUnlessDiagonal qubit).tree.prob qubit = reg.chance qubit true :=
    physical.likelihood_settled inside true
  rw [choice, one, generator_settleUnlessDiagonal]
  rfl

theorem Physical.settles_afterChoice (physical : reg.Physical) (qubit : ℕ) (forced : Option Bool) :
    Settles reg ((reg.settleUnlessDiagonal qubit).afterChoice forced) := by
  have settles := physical.toSound.settles_settleUnlessDiagonal qubit
  cases forced with
  | some _ => exact settles
  | none => exact settles.trans (settles.sound.withGenerator _)

/-- An outcome with a positive probability is returned, and the qubit collapses to it. -/
theorem Physical.measureQubit_possible (physical : reg.Physical) (inside : qubit < reg.width)
    {forced : Option Bool} (chosen : reg.choice forced (reg.chance qubit true) = value)
    (positive : 0 < reg.chance qubit value) :
    ∃ left, (measureQubit qubit forced true).runOn reg = (.ok value, left) ∧
      left.generator = (reg.afterChoice forced).generator ∧ reg.CollapsesTo qubit value left := by
  have settles := physical.settles_afterChoice qubit forced
  have possible :
      Scalar.le ((reg.settleUnlessDiagonal qubit).likelihood qubit value) 0 = false := by
    rw [physical.likelihood_settled inside, ← Bool.not_eq_true, Scalar.le_iff, not_le]
    exact positive
  have settled : ((reg.settleUnlessDiagonal qubit).afterChoice forced).SettledOn qubit := by
    cases forced <;> exact physical.toSound.settledOn qubit
  have generator : ((reg.settleUnlessDiagonal qubit).afterChoice forced).generator =
      (reg.afterChoice forced).generator := by
    cases forced <;> simp [afterChoice]
  have nonzero : projected qubit value
      ((reg.settleUnlessDiagonal qubit).afterChoice forced).state ≠ 0 := by
    rw [settles.state]
    intro none
    rw [chance, none, mass_zero, zero_div] at positive
    exact lt_irrefl 0 positive
  obtain ⟨left, run, drawn, collapses⟩ := (physical.settles settles).collapseTo settled
    (inside.trans_eq settles.width.symm) nonzero
  refine ⟨left, ?_, drawn.trans generator, .of_settles settles collapses⟩
  rw [runOn_measureQubit physical.toSound inside, physical.choice_settled inside, chosen, possible,
    if_neg (by simp), if_neg (by simp), if_neg (by simp), run]

/-- An imposed outcome without probability fails and leaves the state as it was. -/
theorem Physical.measureQubit_impossible (physical : reg.Physical) (inside : qubit < reg.width)
    (none : reg.chance qubit value = 0) :
    ∃ left, (measureQubit qubit (some value) true).runOn reg =
      (.error (.impossibleOutcome qubit), left) ∧ Settles reg left := by
  have impossible :
      Scalar.le ((reg.settleUnlessDiagonal qubit).likelihood qubit value) 0 = true := by
    rw [physical.likelihood_settled inside, none, Scalar.le_iff]
  refine ⟨_, ?_, physical.settles_afterChoice qubit (some value)⟩
  rw [runOn_measureQubit physical.toSound inside, physical.choice_settled inside]
  change (if (Scalar.le ((reg.settleUnlessDiagonal qubit).likelihood qubit value) 0 && true) = true
    then _ else _) = _
  rw [impossible]
  rfl

/-- A draw is never negative and less than one, so a drawn outcome has a positive probability. -/
theorem Physical.chance_drawn_pos (physical : reg.Physical) (qubit : ℕ) :
    0 < reg.chance qubit (reg.choice none (reg.chance qubit true)) := by
  cases drawn : reg.choice none (reg.chance qubit true) with
  | true => exact reg.generator.unit_nonneg.trans_lt ((Scalar.lt_iff _ _).mp drawn)
  | false =>
      have least : reg.chance qubit true ≤ (reg.generator.unit : ℝ × Generator).1 := by
        rw [← not_lt, ← Scalar.lt_iff]
        exact Bool.eq_false_iff.mp drawn
      rw [physical.chance_false]
      exact sub_pos.mpr (least.trans_lt reg.generator.unit_lt_one)

/-- A drawn outcome is never refused, and is 1 if the draw is less than the probability of 1. -/
theorem Physical.measureQubit_drawn (physical : reg.Physical) (inside : qubit < reg.width) :
    let outcome := reg.choice none (reg.chance qubit true)
    ∃ left, (measureQubit qubit none true).runOn reg = (.ok outcome, left) ∧
      left.generator = (reg.generator.unit : ℝ × Generator).2 ∧
        reg.CollapsesTo qubit outcome left :=
  physical.measureQubit_possible inside rfl (physical.chance_drawn_pos qubit)

end Register

end AmplitudeTree
