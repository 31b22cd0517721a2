import AmplitudeTree.Proofs.Register.Gates
import AmplitudeTree.Proofs.Tree.CanonicalForm
import AmplitudeTree.Register.Measure

/-!
# What measurements leave behind

A measurement that returns or fails leaves a sound register of the same width.  If it returns an
outcome, only the basis states with this outcome are left.
-/

namespace AmplitudeTree

open AmplitudeTree.Action
open AmplitudeTree.Tree (projected)

/-! ## Gates on the part of a state where a qubit has a value -/

theorem Gate.act_projected_of_ne {qubit target : ℕ} (gate : Gate ℝ) (different : qubit ≠ target)
    (value : Bool) (state : Assignment → ℂ) :
    gate.act target (projected qubit value state) =
      projected qubit value (gate.act target state) := by
  funext bits
  unfold projected Gate.act
  dsimp only
  rw [Function.update_of_ne different, Function.update_of_ne different]
  split
  · rfl
  · exact mixed_zero gate _

theorem Gate.act_projected_of_diagonal {gate : Gate ℝ} (diagonal : gate.isDiagonal 0 = true)
    (qubit : ℕ) (value : Bool) (state : Assignment → ℂ) :
    gate.act qubit (projected qubit value state) =
      projected qubit value (gate.act qubit state) := by
  funext bits
  rw [act_diagonal diagonal, projected, projected, act_diagonal diagonal, mul_ite, mul_zero]

/-- Gates that wait on other qubits, and diagonal ones, keep a qubit at its value. -/
theorem PendingGates.act_projected {p : PendingGates ℝ} {qubit : ℕ}
    (diagonal : ∀ gate, p.get? qubit = some gate → gate.isDiagonal 0 = true) (value : Bool)
    (state : Assignment → ℂ) :
    p.act (projected qubit value state) = projected qubit value (p.act state) := by
  refine (p.actOn_comm (projected qubit value) (fun q _ state => ?_) state).symm
  unfold actAt
  split
  · next gate waits =>
      by_cases same : qubit = q
      · subst same
        exact (Gate.act_projected_of_diagonal (diagonal gate waits) qubit value state).symm
      · exact (Gate.act_projected_of_ne gate same value state).symm
  · rfl

namespace Register

variable {reg : Register ℝ}

theorem Sound.basis (sound : reg.Sound) (index : BasisIndex) (phase : Amplitude ℝ) :
    Retains reg { reg with
      pending := reg.pending.clear
      tree := .basis reg.width index phase reg.threshold } where
  sound :=
    { tree := by
        rw [sound.threshold_eq]
        exact (Tree.sound_basis _ _ _).1
      slots := (List.length_map _).trans sound.slots
      exact := sound.exact
      admitted := sound.admitted }
  width := rfl
  config := rfl
  factory := rfl

theorem keeps_setBasis (index : BasisIndex) (phase : Amplitude ℝ) : Keeps (setBasis index phase) :=
  (Keeps.check _).bind fun _ => Keeps.modify fun _ sound => sound.basis index phase

theorem keeps_draw : Keeps (draw : Action ℝ ℝ) := fun _ sound => (sound.withGenerator _).toRetains

theorem keeps_prob (qubit : ℕ) : Keeps (prob qubit : Action ℝ ℝ) :=
  (Keeps.check _).bind fun _ =>
    (Keeps.modify fun _ sound => (sound.settles_settleUnlessDiagonal qubit).toRetains).bind
      fun _ => Keeps.get.bind fun _ => Keeps.pure _

theorem keeps_chooseOutcome (forced : Option Bool) (one : ℝ) :
    Keeps (chooseOutcome forced one) := by
  unfold chooseOutcome
  split
  · exact Keeps.pure _
  · exact keeps_draw.bind fun _ => Keeps.pure _

noncomputable def collapsed (reg : Register ℝ) (qubit : ℕ) (value : Bool) : Register ℝ :=
  { reg with
    pending := reg.pending.erase qubit
    tree := (reg.tree.collapse qubit value).2 }

theorem Sound.collapsed (sound : reg.Sound) (qubit : ℕ) (value : Bool) :
    Retains reg (reg.collapsed qubit value) where
  sound :=
    { tree := sound.tree.collapse_any qubit value
      slots := (PendingGates.width_erase _ _).trans
        (sound.slots.trans (Tree.width_collapse _ _ _).symm)
      exact := sound.exact
      admitted := sound.admitted }
  width := Tree.width_collapse _ _ _
  config := rfl
  factory := rfl

noncomputable def collapseTo (qubit : ℕ) (outcome : Bool) : Action ℝ Bool := do
  let kept ← modifyGet fun reg =>
    ((reg.tree.collapse qubit outcome).1, reg.collapsed qubit outcome)
  if !kept then throw (.impossibleOutcome qubit)
  modify afterChange
  return outcome

theorem runOn_collapseTo (reg : Register ℝ) (qubit : ℕ) (outcome : Bool) :
    (collapseTo qubit outcome).runOn reg =
      if (reg.tree.collapse qubit outcome).1 then
        (.ok outcome, (reg.collapsed qubit outcome).afterChange)
      else (.error (.impossibleOutcome qubit), reg.collapsed qubit outcome) := by
  rw [collapseTo, runOn_bind, runOn_modifyGet]
  dsimp only
  cases (reg.tree.collapse qubit outcome).1 <;> rfl

theorem keeps_collapseTo (qubit : ℕ) (outcome : Bool) : Keeps (collapseTo qubit outcome) := by
  intro reg sound
  have collapsed := sound.collapsed qubit outcome
  rw [runOn_collapseTo]
  split
  · exact collapsed.trans collapsed.sound.settles_afterChange.toRetains
  · exact collapsed

theorem keeps_measureQubit (qubit : ℕ) (forced : Option Bool) (collapse : Bool) :
    Keeps (measureQubit qubit forced collapse : Action ℝ Bool) := by
  unfold measureQubit
  refine (Keeps.check _).bind fun _ =>
    (Keeps.modify fun _ sound => (sound.settles_settleUnlessDiagonal qubit).toRetains).bind
      fun _ => Keeps.get.bind fun _ => (keeps_chooseOutcome _ _).bind fun _ => ?_
  have last (outcome : Bool) := Keeps.ite (p := (!collapse) = true) (Keeps.pure outcome)
    (keeps_collapseTo qubit outcome)
  exact Keeps.ite ((Keeps.throw _).bind fun _ => last _) (last _)

/-- A measurement settles a gate unless it is diagonal, draws an outcome and
collapses the tree to it. -/
theorem Sound.runOn_measure (sound : reg.Sound) {qubit : ℕ} (inside : qubit < reg.width) :
    ∃ drawn outcome, Settles reg drawn ∧
      (∀ gate, drawn.pending.get? qubit = some gate → gate.isDiagonal 0 = true) ∧
      (measure qubit).runOn reg =
        if (drawn.tree.collapse qubit outcome).1 then
          (.ok outcome, (drawn.collapsed qubit outcome).afterChange)
        else (.error (.impossibleOutcome qubit), drawn.collapsed qubit outcome) := by
  have settles := sound.settles_settleUnlessDiagonal qubit
  let settled := reg.settleUnlessDiagonal qubit
  let chosen := Scalar.lt (settled.generator.unit : ℝ × Generator).1 (settled.tree.prob qubit)
  let likelihood := if chosen then settled.tree.prob qubit else 1 - settled.tree.prob qubit
  let drawn := { settled with generator := (settled.generator.unit : ℝ × Generator).2 }
  refine ⟨drawn, if Scalar.le likelihood settled.threshold then !chosen else chosen,
    settles.trans (settles.sound.withGenerator _), fun gate waits => ?_, ?_⟩
  · rw [← sound.threshold_eq]
    exact isDiagonal_of_settleUnlessDiagonal waits
  · rw [measure, measureQubit, runOn_bind, runOn_check, checkQubit_eq_ok.mpr inside]
    dsimp only
    rw [runOn_bind, runOn_modify]
    dsimp only
    rw [runOn_bind, runOn_get]
    dsimp only
    rw [runOn_bind, chooseOutcome, runOn_bind, draw, runOn_modifyGet]
    dsimp only
    rw [runOn_pure]
    dsimp only
    rw [Option.isSome_none, Bool.and_false, if_neg Bool.false_ne_true]
    exact runOn_collapseTo drawn qubit _

/-- A measurement that fails has drawn an outcome without amplitude; else nothing of the other
outcome is left, and no gate waits. -/
theorem Sound.measure_cases (sound : reg.Sound) {qubit : ℕ} (inside : qubit < reg.width) :
    ∃ outcome,
      (∃ left, (measure qubit).runOn reg = (.error (.impossibleOutcome qubit), left) ∧
        projected qubit outcome reg.state = 0) ∨
      ∃ left, (measure qubit).runOn reg = (.ok outcome, left) ∧ Retains reg left ∧
        left.pending.get? qubit = none ∧
        (∀ q, left.pending.get? q = reg.pending.get? q ∨ left.pending.get? q = none) ∧
        projected qubit outcome left.state = left.state := by
  obtain ⟨drawn, outcome, settles, diagonal, run⟩ := sound.runOn_measure inside
  obtain ⟨_, kept⟩ := settles.sound.tree.collapse (inside.trans_eq settles.width.symm) outcome
  have collapsed := settles.sound.collapsed qubit outcome
  refine ⟨outcome, ?_⟩
  cases found : (drawn.tree.collapse qubit outcome).1 with
  | false =>
      rw [found, if_neg Bool.false_ne_true] at run kept
      refine Or.inl ⟨_, run, ?_⟩
      rw [← settles.state, state, ← PendingGates.act_projected diagonal, kept.2,
        PendingGates.act, PendingGates.actOn_zero]
  | true =>
      rw [found, if_pos rfl] at run kept
      obtain ⟨factor, _, projection⟩ := kept
      have reduced := collapsed.sound.settles_afterChange
      have erased : (drawn.collapsed qubit outcome).pending.get? qubit = none :=
        PendingGates.get?_erase_self _ _
      refine Or.inr ⟨_, run, settles.toRetains.trans (collapsed.trans reduced.toRetains), erased,
        ?_, ?_⟩
      · intro q
        by_cases same : q = qubit
        · exact Or.inr (same ▸ erased)
        · have other : (drawn.collapsed qubit outcome).pending.get? q = drawn.pending.get? q :=
            PendingGates.get?_erase_of_ne same
          exact other ▸ settles.waiting q
      · have free (gate : Gate ℝ)
            (waits : (drawn.collapsed qubit outcome).pending.get? qubit = some gate) :
            gate.isDiagonal 0 = true := by
          rw [erased] at waits
          cases waits
        have treeState : (drawn.collapsed qubit outcome).tree.state = _ := projection
        rw [reduced.state, state, ← PendingGates.act_projected free, treeState]
        congr 1
        funext bits
        by_cases here : bits qubit = outcome <;> simp [projected, here]

theorem keeps_measureFrom (qubit place : ℕ) (forced : Option BasisIndex) (length : ℕ) :
    Keeps (measureFrom qubit place forced length : Action ℝ BasisIndex) := by
  induction length generalizing qubit place with
  | zero => exact Keeps.pure _
  | succ length ih =>
      exact (keeps_measureQubit _ _ _).bind fun _ => (ih _ _).bind fun _ => Keeps.pure _

theorem keeps_flipFrom (qubit place : ℕ) (measured value : BasisIndex) (length : ℕ) :
    Keeps (flipFrom qubit place measured value length : Action ℝ Unit) := by
  induction length generalizing qubit place with
  | zero => exact Keeps.pure _
  | succ length ih =>
      exact Keeps.ite ((keeps_apply _ _).bind fun _ => ih _ _) (ih _ _)

theorem keeps_measureRange (range : QubitRange) (forced : Option BasisIndex) :
    Keeps (measureRange range forced : Action ℝ BasisIndex) :=
  (Keeps.check _).bind fun _ => keeps_measureFrom _ _ _ _

theorem keeps_prepareRange (range : QubitRange) (value : BasisIndex) :
    Keeps (prepareRange range value : Action ℝ Unit) :=
  (keeps_measureRange range none).bind fun _ => keeps_flipFrom _ _ _ _ _

theorem keeps_sampleIndex (collapse : Bool) :
    Keeps (sampleIndex collapse : Action ℝ BasisIndex) := by
  refine (Keeps.modify fun _ sound => sound.settles_settleAll.toRetains).bind fun _ =>
    Keeps.get_bind fun reg sound => ?_
  generalize reg.tree.sample Generator.unit reg.generator = draws
  obtain ⟨index, generator⟩ := draws
  have finish (a : Amplitude ℝ) : Keeps (if collapse then do
      setBasis index (if Scalar.lt 0 a.norm then a.dividedBy a.norm else 1)
      return index
    else return index : Action ℝ BasisIndex) :=
    Keeps.ite ((keeps_setBasis _ _).bind fun _ => Keeps.pure _) (Keeps.pure _)
  have drawn := (sound.withGenerator generator).toRetains
  dsimp only
  split
  · exact sound.retains_refl
  · exact drawn.trans (finish _ _ drawn.sound)

end Register

end AmplitudeTree
