import AmplitudeTree.Proofs.Register.Outcome
import AmplitudeTree.Proofs.Register.WriteBack
import AmplitudeTree.Proofs.Tree.Sample

/-!
# Drawing a basis state and measuring every qubit

A basis state is drawn down the tree, from the squared scales of its nodes.  Measuring one qubit after
the other draws from the probabilities that the collapses so far have left.  Both make the same
comparisons with the same draws, as the state after some collapses is a multiple of the part that the
node on the path stands for.
-/

namespace AmplitudeTree.Register

open AmplitudeTree.Action
open AmplitudeTree.Tree (basisState pathState pathState_zero projected_smul projected_pathState
  mass_pathState mass_basisState sampleFrom Measures)

variable {reg left : Register ℝ} {s : NodeStore ℝ} {weights : Std.HashMap NodeId ℝ}
  {qubit levels : ℕ} {id : NodeId} {index : BasisIndex}

/-! ## Steps -/

/-- A register whose qubits above a node have collapsed to an index, and whose state is a multiple
of the node's. -/
structure Follows (reg : Register ℝ) (s : NodeStore ℝ) (weights : Std.HashMap NodeId ℝ) (qubit : ℕ)
    (index : BasisIndex) (id : NodeId) : Prop where
  physical : reg.Physical
  onLevel : s.OnLevel True reg.width qubit id
  known : s.isZero id = false → id ∈ weights
  below : index < 2 ^ qubit
  proportional : Proportional (pathState index qubit (s.unfold id)) reg.state

theorem Follows.nonzero (follows : Follows reg s weights qubit index id) : s.isZero id = false := by
  by_contra empty
  refine follows.proportional.symm.ne_zero follows.physical.state_ne_zero ?_
  rw [NodeStore.unfold_of_isZero (Bool.not_eq_false _ ▸ empty), pathState_zero]

/-- The probability that the next qubit reads 1 is the squared scale of the branch for 1. -/
theorem Follows.chance_eq (follows : Follows reg s weights qubit index id) (ordered : s.Ordered)
    {low high : NodeId} (branches : (s.get id).branches = some (low, high)) :
    reg.chance qubit true = Complex.normSq (s.unfold high).scale := by
  obtain ⟨inside, -, -, highLevel, -⟩ :=
    follows.onLevel.fork ordered follows.nonzero branches
  have whole := mass_pathState follows.onLevel.regular follows.below
  have part := mass_pathState highLevel.regular (BasisIndex.extended_lt follows.below true)
  have levels : qubit + (reg.width - qubit) = reg.width := by omega
  have later : qubit + 1 + (reg.width - (qubit + 1)) = reg.width := by omega
  have scaled := follows.onLevel.scale_ne_zero follows.nonzero
  obtain ⟨factor, nonzero, state⟩ := follows.proportional
  rw [levels] at whole
  rw [later] at part
  rw [chance, state, projected_smul, mass_smul, mass_smul, whole,
    ordered.unfold_of_branches follows.nonzero branches, projected_pathState follows.below, mass_smul,
    if_pos rfl, part, Unfolding.scale_fork]
  have factorPos := Complex.normSq_pos.mpr nonzero
  have scalePos := Complex.normSq_pos.mpr scaled
  field_simp

/-- A measurement of the next qubit goes on to the branch for its outcome. -/
theorem Follows.collapse (follows : Follows reg s weights qubit index id)
    (measures : Measures s weights) (ordered : s.Ordered) {low high : NodeId}
    (branches : (s.get id).branches = some (low, high)) {value : Bool}
    (collapses : reg.CollapsesTo qubit value left) :
    Follows left s weights (qubit + 1) (index.extended qubit value) (if value then high else low) := by
  obtain ⟨inside, lowLevel, highLevel⟩ := follows.onLevel.branches ordered follows.nonzero branches
  obtain ⟨lowKnown, highKnown⟩ := measures.closed id (follows.known follows.nonzero) low high branches
  have scaled := follows.onLevel.scale_ne_zero follows.nonzero
  refine ⟨collapses.physical, ?_, ?_, BasisIndex.extended_lt follows.below value, ?_⟩
  · rw [collapses.width]
    cases value
    · exact lowLevel
    · exact highLevel
  · cases value
    · exact lowKnown
    · exact highKnown
  · obtain ⟨factor, nonzero, state⟩ := follows.proportional
    have projection := collapses.proportional
    rw [state, projected_smul, ordered.unfold_of_branches follows.nonzero branches,
      projected_pathState follows.below, smul_smul] at projection
    refine Proportional.trans ⟨_, mul_ne_zero nonzero scaled, ?_⟩ projection
    cases value <;> rfl

/-! ## Runs -/

/-- The remaining qubits have been measured: what is left is the basis state that is
drawn from the node. -/
structure Drawn (reg : Register ℝ) (levels : ℕ) (drawn : BasisIndex × Generator)
    (left : Register ℝ) : Prop where
  physical : left.Physical
  width : left.width = reg.width
  generator : left.generator = drawn.2
  position : drawn.2.position = reg.generator.position + levels
  below : drawn.1 < 2 ^ reg.width
  proportional : Proportional (basisState drawn.1 0 reg.width 1) left.state
  unit : 0 < levels ∨ mass reg.width reg.state = 1 → mass reg.width left.state = 1

theorem Follows.drawn_zero (follows : Follows reg s weights qubit index id)
    (bottom : qubit = reg.width) : Drawn reg 0 (index, reg.generator) reg where
  physical := follows.physical
  width := rfl
  generator := rfl
  position := rfl
  below := bottom ▸ follows.below
  proportional := by
    have regular := follows.onLevel.regular
    rw [bottom, Nat.sub_self] at regular
    obtain ⟨c, nonzero, leaf⟩ :=
      regular.leaf_of_zero (NodeStore.unfold_ne_zero.mpr follows.nonzero)
    refine Proportional.trans ⟨c, nonzero, ?_⟩ follows.proportional
    funext bits
    rw [Pi.smul_apply, pathState, leaf, Unfolding.amplitude_leaf, basisState, basisState, bottom,
      smul_eq_mul, mul_ite, mul_one, mul_zero]
  unit given := given.resolve_left (lt_irrefl 0)

/-- One more draw comes before those of the qubits below. -/
theorem Drawn.succ {next : Register ℝ} {value : Bool} {drawn : BasisIndex × Generator}
    (collapses : reg.CollapsesTo qubit value next)
    (generator : next.generator = (reg.generator.unit : ℝ × Generator).2)
    (later : Drawn next levels drawn left) : Drawn reg (levels + 1) drawn left where
  physical := later.physical
  width := later.width.trans collapses.width
  generator := later.generator
  position := by
    rw [later.position, generator, Generator.position_unit]
    omega
  below := collapses.width ▸ later.below
  proportional := collapses.width ▸ later.proportional
  unit _ := by
    have unit := later.unit (Or.inr (collapses.width.symm ▸ collapses.unit))
    rwa [collapses.width] at unit

/-- Measuring the qubits from a level on draws the same values as the walk down the tree. -/
theorem Follows.runOn_measureFrom (measures : Measures s weights) (ordered : s.Ordered)
    (follows : Follows reg s weights qubit index id) (total : qubit + levels = reg.width) :
    let drawn := sampleFrom s weights Generator.unit levels qubit id index reg.generator
    ∃ rest left, (measureFrom qubit qubit none levels).runOn reg = (.ok rest, left) ∧
      index ||| rest = drawn.1 ∧ Drawn reg levels drawn left := by
  induction levels generalizing reg qubit index id with
  | zero => exact ⟨0, reg, rfl, Nat.or_zero _, follows.drawn_zero total⟩
  | succ levels ih =>
      have inside : qubit < reg.width := by omega
      cases branches : (s.get id).branches with
      | none => exact absurd (follows.onLevel.eq_width follows.nonzero branches) inside.ne
      | some pair =>
          obtain ⟨low, high⟩ := pair
          -- the measurement compares the draw with what the walk compares it with
          have step := measures.sampleFrom_succ ordered follows.onLevel follows.nonzero
            (follows.known follows.nonzero) branches Generator.unit levels index reg.generator
          rw [← follows.chance_eq ordered branches] at step
          obtain ⟨next, run, generator, collapses⟩ := follows.physical.measureQubit_drawn inside
          have further := follows.collapse measures ordered branches collapses
          obtain ⟨rest, left, later, joined, drawn⟩ := ih further (by rw [collapses.width]; omega)
          rw [generator] at joined drawn
          refine ⟨(if reg.choice none (reg.chance qubit true) then .power qubit else 0) ||| rest, left,
            ?_, ?_, ?_⟩
          · rw [measureFrom, Option.map_none, runOn_bind, run]
            dsimp only
            rw [runOn_bind, later]
            rfl
          · rw [step, ← Nat.or_assoc]
            refine Eq.trans (congrArg (· ||| rest) ?_) joined
            rw [BasisIndex.extended]
            split
            · rfl
            · exact Nat.or_zero _
          · rw [step]
            exact drawn.succ collapses generator

/-! ## Whole registers -/

theorem Physical.follows_root (physical : reg.Physical) :
    Follows reg reg.settleAll.tree.store reg.settleAll.tree.subtreeWeights 0 0
      reg.settleAll.tree.root := by
  have settles := physical.toSound.settles_settleAll
  have tree := settles.sound.tree
  refine ⟨physical, ?_, Tree.root_mem_subtreeWeights, Nat.one_pos, ?_⟩
  · have onLevel := tree.onLevel
    rwa [show reg.settleAll.tree.width = reg.width from settles.width] at onLevel
  · rw [Tree.pathState_root, ← physical.toSound.settleAll_state]
    exact (Turned.refl _).proportional

noncomputable def drawnIndex (reg : Register ℝ) : BasisIndex × Generator :=
  reg.settleAll.tree.sample Generator.unit reg.generator

/-- Measuring every qubit in turn draws the basis state that is drawn from the tree. -/
theorem Physical.runOn_measureRange (physical : reg.Physical) :
    ∃ left, (measureRange ⟨0, reg.width⟩ none).runOn reg = (.ok reg.drawnIndex.1, left) ∧
      Drawn reg reg.width reg.drawnIndex left := by
  have settles := physical.toSound.settles_settleAll
  obtain ⟨rest, left, run, joined, drawn⟩ := physical.follows_root.runOn_measureFrom
    (Tree.measures_subtreeWeights settles.sound.tree.exact.toOrdered)
    settles.sound.tree.exact.toOrdered (Nat.zero_add _)
  have width : reg.settleAll.tree.width = reg.width := settles.width
  have sampled : sampleFrom reg.settleAll.tree.store reg.settleAll.tree.subtreeWeights Generator.unit
      reg.width 0 reg.settleAll.tree.root 0 reg.generator = reg.drawnIndex := by
    rw [drawnIndex, Tree.sample, width]
  rw [sampled] at joined drawn
  rw [Nat.zero_or] at joined
  refine ⟨left, ?_, drawn⟩
  have inside : reg.checkRange ⟨0, reg.width⟩ = .ok () := if_pos (Nat.zero_add _).le
  rw [measureRange, runOn_bind, runOn_check, inside, ← joined]
  exact run

/-- Drawing from the tree resets the register to the basis state that is drawn, with norm one. -/
theorem Physical.runOn_measureAll_drawn (physical : reg.Physical) :
    ∃ left, measureAll.runOn reg = (.ok reg.drawnIndex.1, left) ∧
      Drawn reg reg.width reg.drawnIndex left ∧ mass reg.width left.state = 1 := by
  obtain ⟨_, _, drawn⟩ := physical.runOn_measureRange
  have settles := physical.toSound.settles_settleAll
  have settled := (physical.settles settles).withGenerator reg.drawnIndex.2
  let moved : Register ℝ := { reg.settleAll with generator := reg.drawnIndex.2 }
  let phase := phaseOf (reg.settleAll.tree.amplitude reg.drawnIndex.1)
  let left := moved.reset reg.drawnIndex.1 phase
  have width : moved.width = reg.width := settles.width
  have nonzero : phase.toComplex ≠ 0 := phaseOf_ne_zero _
  have state : left.state = phase.toComplex • basisState reg.drawnIndex.1 0 reg.width 1 := by
    rw [← width]
    exact settled.toSound.reset_state reg.drawnIndex.1 phase
  have unit : mass reg.width left.state = 1 := by
    rw [state, mass_smul, mass_basisState reg.width drawn.below, mul_one]
    exact normSq_phaseOf _
  refine ⟨left, ?_, ?_, unit⟩
  · have inside : moved.checkIndex reg.drawnIndex.1 = .ok () := by
      rw [checkIndex, BasisIndex.check_eq_ok.mpr fun _ => width.symm ▸ drawn.below]
      rfl
    have run := physical.runOn_measureAll
    dsimp only at run
    rw [generator_settleAll] at run
    rw [run]
    change ((setBasis reg.drawnIndex.1 phase).runOn moved).map _ id = _
    rw [runOn_setBasis, inside]
    rfl
  · exact
      { physical := settled.reset reg.drawnIndex.1 nonzero
        width := width
        generator := rfl
        position := drawn.position
        below := drawn.below
        proportional := ⟨_, nonzero, state⟩
        unit := fun _ => unit }

/-- Registers with the same settings that are left by one draw are alike if both have norm one. -/
theorem Drawn.alike {other : Register ℝ} {drawn : BasisIndex × Generator}
    (first : Drawn reg levels drawn left) (second : Drawn reg levels drawn other)
    (config : other.config = left.config) (unit : mass reg.width left.state = 1)
    (unit' : mass reg.width other.state = 1) : Alike left other where
  physical := first.physical
  otherPhysical := second.physical
  width := second.width.trans first.width.symm
  config := config
  generator := second.generator.trans first.generator.symm
  turned := (first.proportional.symm.trans second.proportional).turned (unit'.trans unit.symm)
    (unit.trans_ne one_ne_zero)

/-! ## Every register -/

/-- Drawing a basis state and measuring all qubits in turn return the same index after the same
draws, and leave the same state up to a global phase; only without qubits the first one alone brings
the norm to one. -/
theorem measureAll_eq_measureRange (ready : reg.Ready) :
    ∃ index left other, measureAll.runOn reg = (.ok index, left) ∧
      (measureRange ⟨0, reg.width⟩ none).runOn reg = (.ok index, other) ∧
      other.generator = left.generator ∧
      left.generator.position = reg.generator.position + reg.width ∧
      (0 < reg.width ∨ reg.normSq = 1 → left.SamePhase other) := by
  have physical := ready.physical
  obtain ⟨left, run, drawn, unit⟩ := physical.runOn_measureAll_drawn
  obtain ⟨other, run', drawn'⟩ := physical.runOn_measureRange
  refine ⟨reg.drawnIndex.1, left, other, run, run', drawn'.generator.trans drawn.generator.symm,
    drawn.generator ▸ drawn.position, fun given => ?_⟩
  have config : left.config = reg.config := by
    have kept := (keeps_sampleIndex true reg physical.toSound).config
    rwa [show (sampleIndex true).runOn reg = _ from run] at kept
  have config' : other.config = reg.config := by
    have kept := (keeps_measureRange ⟨0, reg.width⟩ none reg physical.toSound).config
    rwa [run'] at kept
  have norm : mass reg.width reg.state = reg.normSq := by
    rw [physical.mass_eq, normSq, physical.tree.normSq_eq, ← physical.tree.mass_state]
    rfl
  exact (drawn.alike drawn' (config'.trans config.symm) unit (drawn'.unit (norm ▸ given))).samePhase

/-- A pair of qubits that is not normalized, with a Hadamard gate that waits on one of them. -/
theorem measureAll_eq_measureRange_hadamard :
    ∃ fresh reg : Register ℝ, create 2 0 exactConfig 0 = .ok fresh ∧
      (setAmplitudes #[1, ⟨2, 0⟩, 0, ⟨0, 1⟩]).runOn fresh = (.ok (), reg) ∧
      let waiting := ((applyWhere [] true .hadamard 0).runOn reg).2
      ∃ index left other, measureAll.runOn waiting = (.ok index, left) ∧
        (measureRange ⟨0, 2⟩ none).runOn waiting = (.ok index, other) ∧ left.SamePhase other := by
  obtain ⟨fresh, reg, made, run, ready, width, -⟩ :=
    exists_ready_of_amplitudes 2 (by decide) #[1, ⟨2, 0⟩, 0, ⟨0, 1⟩] rfl
      ⟨1, by simp, fun zero => by simpa using congrArg (fun a => a.toComplex.re) zero⟩
  refine ⟨fresh, reg, made, run, ?_⟩
  intro waiting
  have waitingWidth : waiting.width = 2 :=
    (keeps_applyWhere [] true .hadamard 0 reg ready.reachable.sound).width.trans width
  obtain ⟨index, left, other, drawn, measured, -, -, same⟩ :=
    measureAll_eq_measureRange (ready.gate Gate.hadamard_isUnitary [] true 0)
  have measured : (measureRange ⟨0, waiting.width⟩ none).runOn waiting = _ := measured
  rw [waitingWidth] at measured
  exact ⟨index, left, other, drawn, measured, same (.inl (waitingWidth.symm ▸ two_pos))⟩

/-- Without qubits an amplitude of modulus two is kept by a measurement, but brought to modulus one
by a draw. -/
theorem measureAll_normalizes_without_qubits :
    ∃ fresh reg : Register ℝ, create 0 0 exactConfig 0 = .ok fresh ∧
      (setAmplitudes #[⟨2, 0⟩]).runOn fresh = (.ok (), reg) ∧ reg.Ready ∧ reg.width = 0 ∧
      ∃ left other, measureAll.runOn reg = (.ok 0, left) ∧
        (measureRange ⟨0, 0⟩ none).runOn reg = (.ok 0, other) ∧
        (left.represented 0).normSq = 1 ∧ (other.represented 0).normSq = 4 ∧
          ¬ left.SamePhase other := by
  obtain ⟨fresh, reg, made, run, ready, width, -, -, represented⟩ :=
    exists_ready_of_amplitudes 0 (by decide) #[⟨2, 0⟩] rfl
      ⟨⟨2, 0⟩, by simp, fun zero => by simpa using congrArg (fun a => a.toComplex.re) zero⟩
  obtain ⟨left, drawn, ends, unit⟩ := ready.physical.runOn_measureAll_drawn
  have index : reg.drawnIndex.1 = 0 := by
    have below := ends.below
    rwa [width, pow_zero, Nat.lt_one_iff] at below
  have one : (left.represented 0).normSq = 1 := by
    rw [width, mass_eq_sum] at unit
    rw [Amplitude.normSq_eq, ends.physical.toSound.toComplex_represented]
    simpa using unit
  have four : (reg.represented 0).normSq = 4 := by
    rw [represented 0 Nat.one_pos]
    norm_num [Amplitude.normSq]
  have kept : (measureRange ⟨0, 0⟩ none).runOn reg = (.ok 0, reg) := by
    have inside : reg.checkRange ⟨0, 0⟩ = .ok () := if_pos (Nat.zero_le _)
    rw [measureRange, runOn_bind, runOn_check, inside]
    rfl
  refine ⟨fresh, reg, made, run, ready, width, left, reg, index ▸ drawn, kept, one, four, ?_⟩
  rintro ⟨-, -, phase, unitary, turned⟩
  have norms := congrArg Amplitude.normSq (turned 0)
  rw [four, Amplitude.normSq_eq, Amplitude.toComplex_mul, map_mul, ← Amplitude.normSq_eq,
    ← Amplitude.normSq_eq, unitary, one] at norms
  norm_num at norms

end AmplitudeTree.Register
