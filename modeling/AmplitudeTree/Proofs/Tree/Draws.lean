import AmplitudeTree.Proofs.Tree.Branched
import AmplitudeTree.Proofs.Tree.Sample
import Mathlib.MeasureTheory.Measure.Lebesgue.Basic

/-!
# Draws of a basis state

A draw goes down a branched tree and compares one number per level with the local weights of the two
branches.  The node it has come to stands for the part of the state where the qubits above have the
values drawn so far, so what the number is compared with is the probability that the next qubit reads 1
under this condition.  The sequences of numbers that lead to one basis state are those of a box, and
its volume is the probability of this basis state.
-/

namespace AmplitudeTree.Tree

open MeasureTheory

variable {t : Tree ℝ} {γ : Type} {draw : γ → ℝ × γ} {source : γ} {index other : BasisIndex}
  {qubit levels : ℕ} {id low high : NodeId}

/-! ## Conditional probabilities -/

def agreeing (index : BasisIndex) (qubits : ℕ) (other : BasisIndex) : Bool :=
  decide (∀ q < qubits, other.testBit q = index.testBit q)

noncomputable def weightOfOne (t : Tree ℝ) (index : BasisIndex) (qubit : ℕ) : ℝ :=
  t.weightWhere fun other => agreeing index qubit other && other.testBit qubit

/-- The probability that a qubit reads 1 if all qubits below it have the values of an index. -/
noncomputable def conditional (t : Tree ℝ) (index : BasisIndex) (qubit : ℕ) : ℝ :=
  t.weightOfOne index qubit / t.weightWhere (agreeing index qubit)

theorem agreeing_congr {qubits : ℕ} (same : ∀ q < qubits, other.testBit q = index.testBit q) :
    agreeing other qubits = agreeing index qubits := by
  funext basis
  refine decide_eq_decide.mpr (forall₂_congr fun q below => ?_)
  rw [same q below]

theorem conditional_congr (same : ∀ q < qubit, other.testBit q = index.testBit q) :
    t.conditional other qubit = t.conditional index qubit := by
  rw [conditional, conditional, weightOfOne, weightOfOne, agreeing_congr same]

theorem weightWhere_nonneg (t : Tree ℝ) (holds : BasisIndex → Bool) : 0 ≤ t.weightWhere holds := by
  refine Finset.sum_nonneg fun index _ => ?_
  split
  · exact Amplitude.normSq_nonneg _
  · exact le_refl 0

theorem weightOfOne_add (t : Tree ℝ) (index : BasisIndex) (qubit : ℕ) :
    t.weightOfOne index qubit +
        t.weightWhere (fun other => agreeing index qubit other && !other.testBit qubit) =
      t.weightWhere (agreeing index qubit) := by
  rw [weightOfOne, weightWhere, weightWhere, weightWhere, ← Finset.sum_add_distrib]
  refine Finset.sum_congr rfl fun other _ => ?_
  cases agreeing index qubit other <;> cases Nat.testBit other qubit <;> simp

theorem weightOfOne_le (t : Tree ℝ) (index : BasisIndex) (qubit : ℕ) :
    t.weightOfOne index qubit ≤ t.weightWhere (agreeing index qubit) := by
  rw [← weightOfOne_add]
  exact le_add_of_nonneg_right (t.weightWhere_nonneg _)

theorem conditional_nonneg (t : Tree ℝ) (index : BasisIndex) (qubit : ℕ) :
    0 ≤ t.conditional index qubit :=
  div_nonneg (t.weightWhere_nonneg _) (t.weightWhere_nonneg _)

theorem conditional_le_one (t : Tree ℝ) (index : BasisIndex) (qubit : ℕ) :
    t.conditional index qubit ≤ 1 :=
  div_le_one_of_le₀ (t.weightOfOne_le index qubit) (t.weightWhere_nonneg _)

/-- What is left once one more qubit has the value of the index. -/
theorem weightWhere_agreeing_succ (t : Tree ℝ) (index : BasisIndex) (qubit : ℕ) :
    t.weightWhere (agreeing index (qubit + 1)) =
      if index.testBit qubit then t.weightOfOne index qubit
      else t.weightWhere (agreeing index qubit) - t.weightOfOne index qubit := by
  have step (other : BasisIndex) : agreeing index (qubit + 1) other =
      (agreeing index qubit other && other.testBit qubit == index.testBit qubit) := by
    rw [agreeing, agreeing, Bool.eq_iff_iff, Bool.and_eq_true, decide_eq_true_iff,
      decide_eq_true_iff, beq_iff_eq, Nat.forall_lt_succ_right]
  rw [funext step]
  cases index.testBit qubit with
  | true => simp only [beq_true, weightOfOne, if_true]
  | false =>
      rw [if_neg Bool.false_ne_true, ← weightOfOne_add, add_sub_cancel_left]
      simp only [beq_false]

theorem weightWhere_agreeing_width (below : index < 2 ^ t.width) :
    t.weightWhere (agreeing index t.width) = (t.amplitude index).normSq := by
  rw [weightWhere, Finset.sum_eq_single index]
  · exact if_pos (decide_eq_true fun _ _ => rfl)
  · intro other member different
    refine if_neg fun agrees => different ?_
    exact BasisIndex.eq_of_testBit (Finset.mem_range.mp member) below (of_decide_eq_true agrees)
  · exact fun outside => absurd (Finset.mem_range.mpr below) outside

theorem Branched.weightWhere_agreeing_zero (branched : t.Branched) (index : BasisIndex) :
    t.weightWhere (agreeing index 0) = t.normSq := by
  have all : agreeing index 0 = fun _ => true := funext fun _ => decide_eq_true nofun
  rw [all, branched.normSq_eq]

/-- A value that a number from the half-open unit interval selects has some weight. -/
theorem weightWhere_extended_pos (below : index < 2 ^ qubit)
    (weighs : 0 < t.weightWhere (agreeing index qubit)) {r : ℝ} (unit : 0 ≤ r ∧ r < 1) :
    0 < t.weightWhere (agreeing (index.extended qubit (decide (r < t.conditional index qubit)))
      (qubit + 1)) := by
  have bits := BasisIndex.testBit_extended below (decide (r < t.conditional index qubit))
  have same : ∀ q < qubit, Nat.testBit
      (index.extended qubit (decide (r < t.conditional index qubit))) q = index.testBit q := by
    intro q lower
    rw [bits, Function.update_of_ne lower.ne]
  rw [weightWhere_agreeing_succ, weightOfOne, agreeing_congr same, bits, Function.update_self]
  change 0 < if _ then t.weightOfOne index qubit else _ - t.weightOfOne index qubit
  by_cases selects : r < t.conditional index qubit
  · rw [if_pos (decide_eq_true selects)]
    exact (div_pos_iff_of_pos_right weighs).mp (unit.1.trans_lt selects)
  · rw [if_neg (by simpa using selects), sub_pos]
    exact (div_lt_one weighs).mp ((not_lt.mp selects).trans_lt unit.2)

/-! ## Steps -/

noncomputable def partOf (index : BasisIndex) (qubits : ℕ) (state : Assignment → ℂ)
    (bits : Assignment) : ℂ :=
  basisState index 0 qubits (state bits) bits

theorem partOf_extended (below : index < 2 ^ qubit) (value : Bool) (state : Assignment → ℂ) :
    partOf (index.extended qubit value) (qubit + 1) state =
      projected qubit value (partOf index qubit state) :=
  funext fun bits => basisState_extended below value (state bits) bits

theorem partOf_testBit (index other : BasisIndex) (qubits : ℕ) (state : Assignment → ℂ) :
    partOf index qubits state other.testBit =
      if agreeing index qubits other then state other.testBit else 0 := by
  rw [partOf, basisState]
  exact if_congr (by simp [agreeing]) rfl rfl

theorem Branched.weightWhere_agreeing (branched : t.Branched) (index : BasisIndex) (qubits : ℕ) :
    t.weightWhere (agreeing index qubits) = mass t.width (partOf index qubits t.state) :=
  branched.weightWhere_eq fun other => partOf_testBit index other qubits t.state

theorem Branched.weightOfOne_eq (branched : t.Branched) (index : BasisIndex) (qubit : ℕ) :
    t.weightOfOne index qubit = mass t.width (projected qubit true (partOf index qubit t.state)) := by
  refine branched.weightWhere_eq fun other => ?_
  rw [projected, partOf_testBit, ← ite_and]
  exact if_congr (by rw [Bool.and_eq_true, and_comm]) rfl rfl

/-- A draw has come to a node, which stands for a multiple of the part of the state with the values
drawn so far. -/
structure Drawing (t : Tree ℝ) (qubit : ℕ) (index : BasisIndex) (id : NodeId) : Prop where
  below : index < 2 ^ qubit
  deep : (t.store.unfold id).Deep (t.width - qubit)
  known : t.store.isZero id = false → id ∈ t.subtreeWeights
  stands : ∃ factor : ℂ, partOf index qubit t.state = factor • pathState index qubit (t.store.unfold id)
  weighs : 0 < t.weightWhere (agreeing index qubit)

theorem Drawing.nonzero (drawing : Drawing t qubit index id) (branched : t.Branched) :
    t.store.isZero id = false := by
  by_contra empty
  obtain ⟨factor, stands⟩ := drawing.stands
  rw [NodeStore.unfold_of_isZero (Bool.not_eq_false _ ▸ empty), pathState_zero, smul_zero] at stands
  have weighs := drawing.weighs
  rw [branched.weightWhere_agreeing, stands, mass_zero] at weighs
  exact lt_irrefl 0 weighs

/-- The two branches of the node that a draw has come to, and their share of the state. -/
theorem Drawing.fork (drawing : Drawing t qubit index id) (branched : t.Branched)
    (inside : qubit < t.width) :
    ∃ low high share, (t.store.get id).branches = some (low, high) ∧ 0 < share ∧
      t.weightWhere (agreeing index qubit) =
        share * ((t.store.unfold low).weight + (t.store.unfold high).weight) ∧
      t.weightOfOne index qubit = share * (t.store.unfold high).weight ∧
      ∀ value, (t.store.unfold (if value then high else low)).Deep (t.width - (qubit + 1)) ∧
        ∃ factor : ℂ, partOf (index.extended qubit value) (qubit + 1) t.state =
          factor • pathState (index.extended qubit value) (qubit + 1)
            (t.store.unfold (if value then high else low)) := by
  have nonzero := drawing.nonzero branched
  obtain ⟨factor, stands⟩ := drawing.stands
  have deep := drawing.deep
  rw [show t.width - qubit = t.width - (qubit + 1) + 1 by omega] at deep
  obtain ⟨c, u, v, found, lowDeep, highDeep⟩ :=
    deep.fork_of_succ (NodeStore.unfold_ne_zero.mpr nonzero)
  obtain ⟨-, low, high, node, rfl, rfl⟩ := branched.ordered.of_unfold_fork found
  rw [found] at stands
  have step (value : Bool) : partOf (index.extended qubit value) (qubit + 1) t.state =
      (factor * c) • pathState (index.extended qubit value) (qubit + 1)
        (t.store.unfold (if value then high else low)) := by
    rw [partOf_extended drawing.below, stands, projected_smul, projected_pathState drawing.below,
      smul_smul]
    cases value <;> rfl
  have deepBranch (value : Bool) :
      (t.store.unfold (if value then high else low)).Deep (t.width - (qubit + 1)) := by
    cases value
    · exact lowDeep
    · exact highDeep
  have branch (value : Bool) :
      mass t.width (projected qubit value (partOf index qubit t.state)) =
        Complex.normSq (factor * c) * (t.store.unfold (if value then high else low)).weight := by
    have path := mass_pathState_of_deep (deepBranch value)
      (BasisIndex.extended_lt drawing.below value)
    rw [show qubit + 1 + (t.width - (qubit + 1)) = t.width by omega] at path
    rw [← partOf_extended drawing.below, step, mass_smul, path]
  have one := branch true
  have whole : t.weightWhere (agreeing index qubit) = Complex.normSq (factor * c) *
      ((t.store.unfold low).weight + (t.store.unfold high).weight) := by
    rw [branched.weightWhere_agreeing, ← mass_projected_add t.width qubit, branch, branch, mul_add]
    rfl
  refine ⟨low, high, Complex.normSq (factor * c), congrArg Node.branches node, ?_, whole, ?_,
    fun value => ⟨deepBranch value, _, step value⟩⟩
  · refine lt_of_le_of_ne (Complex.normSq_nonneg _) fun none => ?_
    have weighs := drawing.weighs
    rw [whole, ← none, zero_mul] at weighs
    exact lt_irrefl 0 weighs
  · rw [branched.weightOfOne_eq]
    exact one

def yielded (draw : γ → ℝ × γ) (source : γ) (step : ℕ) : ℝ :=
  (draw ((fun source => (draw source).2)^[step] source)).1

theorem yielded_succ (draw : γ → ℝ × γ) (source : γ) (step : ℕ) :
    yielded draw source (step + 1) = yielded draw (draw source).2 step := by
  rw [yielded, Function.iterate_succ_apply]
  rfl

/-- A draw sets the qubit if its number is less than the conditional probability, and there is some
state with this value. -/
theorem Drawing.step (drawing : Drawing t qubit index id) (branched : t.Branched)
    (inside : qubit < t.width) (unit : 0 ≤ (draw source).1 ∧ (draw source).1 < 1) (levels : ℕ) :
    let value := decide ((draw source).1 < t.conditional index qubit)
    ∃ child, Drawing t (qubit + 1) (index.extended qubit value) child ∧
      sampleFrom t.store t.subtreeWeights draw (levels + 1) qubit id index source =
        sampleFrom t.store t.subtreeWeights draw levels (qubit + 1) child
          (index.extended qubit value) (draw source).2 := by
  intro value
  obtain ⟨low, high, share, branches, positive, whole, one, below⟩ := drawing.fork branched inside
  have measures := measures_subtreeWeights branched.ordered
  have nonzero := drawing.nonzero branched
  obtain ⟨lowKnown, highKnown⟩ := measures.closed id (drawing.known nonzero) low high branches
  have some := drawing.weighs
  rw [whole] at some
  have total := (mul_pos_iff_of_pos_left positive).mp some
  have chance : t.conditional index qubit = (t.store.unfold high).weight /
      ((t.store.unfold low).weight + (t.store.unfold high).weight) := by
    rw [conditional, whole, one, mul_div_mul_left _ _ positive.ne']
  have compares : Scalar.lt ((draw source).1 *
      ((t.store.unfold low).weight + (t.store.unfold high).weight)) (t.store.unfold high).weight =
        value := by
    rw [Bool.eq_iff_iff, Scalar.lt_iff, decide_eq_true_iff, chance, lt_div_iff₀ total]
  obtain ⟨deep, stands⟩ := below value
  refine ⟨if value then high else low, ⟨BasisIndex.extended_lt drawing.below value, deep, ?_, stands,
    ?_⟩, ?_⟩
  · cases value
    · exact lowKnown
    · exact highKnown
  · exact weightWhere_extended_pos drawing.below drawing.weighs unit
  · have running : Scalar.le ((t.store.unfold low).weight + (t.store.unfold high).weight) (0 : ℝ) =
        false := by
      rw [← Bool.not_eq_true, Scalar.le_iff, not_le]
      exact total
    rw [sampleFrom, nonzero, if_neg Bool.false_ne_true, branches]
    dsimp only
    rw [measures.weight_mul lowKnown, measures.weight_mul highKnown, running,
      if_neg Bool.false_ne_true, compares]
    cases value <;> rfl

/-! ## Runs -/

/-- A draw takes one number per level, compares it with the conditional probability, and comes to
some amplitude. -/
structure Drawn (t : Tree ℝ) (qubit levels : ℕ) (index : BasisIndex) (draw : γ → ℝ × γ) (source : γ)
    (result : BasisIndex × γ) : Prop where
  rest : result.2 = (fun source => (draw source).2)^[levels] source
  below : result.1 < 2 ^ t.width
  above : ∀ q < qubit, result.1.testBit q = index.testBit q
  selects : ∀ step < levels, (result.1.testBit (qubit + step) = true ↔
    yielded draw source step < t.conditional result.1 (qubit + step))
  amplitude : t.amplitude result.1 ≠ 0

theorem Drawing.drawn (drawing : Drawing t qubit index id) (branched : t.Branched)
    (split : qubit + levels = t.width)
    (unit : ∀ step < levels, 0 ≤ yielded draw source step ∧ yielded draw source step < 1) :
    Drawn t qubit levels index draw source
      (sampleFrom t.store t.subtreeWeights draw levels qubit id index source) := by
  induction levels generalizing qubit index id source with
  | zero =>
      have bottom : qubit = t.width := split
      have weighs := drawing.weighs
      rw [bottom, weightWhere_agreeing_width (bottom ▸ drawing.below)] at weighs
      exact
        { rest := rfl
          below := bottom ▸ drawing.below
          above := fun _ _ => rfl
          selects := nofun
          amplitude := fun none => by
            change 0 < (t.amplitude index).normSq at weighs
            rw [show t.amplitude index = 0 from none, Amplitude.normSq_zero] at weighs
            exact lt_irrefl 0 weighs }
  | succ levels ih =>
      have first : 0 ≤ (draw source).1 ∧ (draw source).1 < 1 := unit 0 levels.succ_pos
      have rest : ∀ step < levels,
          0 ≤ yielded draw (draw source).2 step ∧ yielded draw (draw source).2 step < 1 := by
        intro step below
        rw [← yielded_succ]
        exact unit (step + 1) (Nat.succ_lt_succ below)
      obtain ⟨child, next, run⟩ := drawing.step branched (by omega) first levels
      have later := ih next (by omega) rest
      rw [run]
      generalize sampleFrom t.store t.subtreeWeights draw levels _ _ _ _ = result at later ⊢
      have above : ∀ q < qubit, result.1.testBit q = index.testBit q := fun q lower => by
        rw [later.above q (Nat.lt_succ_of_lt lower), BasisIndex.testBit_extended drawing.below,
          Function.update_of_ne lower.ne]
      refine
        { rest := later.rest
          below := later.below
          above := above
          selects := fun step below => ?_
          amplitude := later.amplitude }
      cases step with
      | zero =>
          have chosen := later.above qubit qubit.lt_succ_self
          rw [BasisIndex.testBit_extended drawing.below, Function.update_self, Bool.eq_iff_iff,
            decide_eq_true_iff, ← conditional_congr above] at chosen
          exact chosen
      | succ step =>
          rw [yielded_succ, show qubit + (step + 1) = qubit + 1 + step by omega]
          exact later.selects step (Nat.lt_of_succ_lt_succ below)

theorem Branched.drawing_root (branched : t.Branched) (positive : 0 < t.normSq) :
    Drawing t 0 0 t.root where
  below := Nat.one_pos
  deep := branched.deep
  known := root_mem_subtreeWeights
  stands := ⟨1, by
    rw [one_smul, pathState_root]
    exact funext fun _ => basisState_self ..⟩
  weighs := by rwa [branched.weightWhere_agreeing_zero]

/-! ## Boxes -/

noncomputable def listed {width : ℕ} (numbers : Fin width → ℝ) (step : ℕ) : ℝ × ℕ :=
  (if inside : step < width then numbers ⟨step, inside⟩ else 0, step + 1)

theorem yielded_listed {width : ℕ} (numbers : Fin width → ℝ) (step : Fin width) :
    yielded (listed numbers) 0 step = numbers step := by
  have counted : (fun source => (listed numbers source).2)^[step] 0 = step := by
    change Nat.succ^[step] 0 = step
    rw [Nat.succ_iterate, Nat.zero_add]
  rw [yielded, counted, listed, dif_pos step.isLt]

noncomputable def lower (t : Tree ℝ) (index : BasisIndex) (qubit : ℕ) : ℝ :=
  if index.testBit qubit then 0 else t.conditional index qubit

noncomputable def upper (t : Tree ℝ) (index : BasisIndex) (qubit : ℕ) : ℝ :=
  if index.testBit qubit then t.conditional index qubit else 1

/-- The sequences of numbers that give every qubit the value it has in an index. -/
def box (t : Tree ℝ) (index : BasisIndex) : Set (Fin t.width → ℝ) :=
  Set.pi Set.univ fun qubit => Set.Ico (t.lower index qubit) (t.upper index qubit)

theorem upper_sub_lower_nonneg (t : Tree ℝ) (index : BasisIndex) (qubit : ℕ) :
    0 ≤ t.upper index qubit - t.lower index qubit := by
  rw [lower, upper, sub_nonneg]
  split
  · exact t.conditional_nonneg index qubit
  · exact t.conditional_le_one index qubit

/-- The sides of a box multiply to the share of the basis states that agree with the index. -/
theorem prod_sides (positive : 0 < t.weightWhere (agreeing index 0)) (qubits : ℕ) :
    ∏ qubit ∈ Finset.range qubits, (t.upper index qubit - t.lower index qubit) =
      t.weightWhere (agreeing index qubits) / t.weightWhere (agreeing index 0) := by
  induction qubits with
  | zero => rw [Finset.prod_range_zero, div_self positive.ne']
  | succ qubits ih =>
      rw [Finset.prod_range_succ, ih, weightWhere_agreeing_succ, lower, upper, conditional]
      by_cases empty : t.weightWhere (agreeing index qubits) = 0
      · have none : t.weightOfOne index qubits = 0 :=
          le_antisymm ((t.weightOfOne_le index qubits).trans empty.le) (t.weightWhere_nonneg _)
        rw [empty, none, sub_zero, ite_self, zero_div, zero_mul]
      · split
        · rw [sub_zero, div_mul_div_comm, mul_comm, mul_div_mul_right _ _ empty]
        · rw [one_sub_div empty, div_mul_div_comm, mul_comm, mul_div_mul_right _ _ empty]

/-- Numbers lie in the box just in case each of them selects the value in the index. -/
theorem mem_box_iff {numbers : Fin t.width → ℝ} : numbers ∈ t.box index ↔
    (∀ qubit, 0 ≤ numbers qubit ∧ numbers qubit < 1) ∧ ∀ qubit : Fin t.width,
      (index.testBit qubit = true ↔ numbers qubit < t.conditional index qubit) := by
  rw [box, Set.mem_univ_pi, ← forall_and]
  refine forall_congr' fun qubit => ?_
  have least := t.conditional_nonneg index qubit
  have most := t.conditional_le_one index qubit
  rw [Set.mem_Ico, lower, upper]
  cases index.testBit qubit with
  | true =>
      simp only [if_true, true_iff]
      exact ⟨fun found => ⟨⟨found.1, found.2.trans_le most⟩, found.2⟩,
        fun found => ⟨found.1.1, found.2⟩⟩
  | false =>
      simp only [Bool.false_eq_true, if_false, false_iff, not_lt]
      exact ⟨fun found => ⟨⟨least.trans found.1, found.2⟩, found.1⟩,
        fun found => ⟨found.2, found.1.2⟩⟩

theorem eq_of_selects {numbers : Fin t.width → ℝ} (below : index < 2 ^ t.width)
    (below' : other < 2 ^ t.width)
    (selects : ∀ qubit : Fin t.width,
      (index.testBit qubit = true ↔ numbers qubit < t.conditional index qubit))
    (selects' : ∀ qubit : Fin t.width,
      (other.testBit qubit = true ↔ numbers qubit < t.conditional other qubit)) : index = other := by
  refine BasisIndex.eq_of_testBit below below' fun qubit inside => ?_
  induction qubit using Nat.strong_induction_on with
  | _ qubit ih =>
      have same : t.conditional index qubit = t.conditional other qubit :=
        conditional_congr fun q lower => ih q lower (lower.trans inside)
      rw [Bool.eq_iff_iff, selects ⟨qubit, inside⟩, selects' ⟨qubit, inside⟩, same]

/-- A draw compares one number for each qubit with the conditional probability, and never returns a
basis state without amplitude.  The sequences that return a basis state form a box, whose volume is
its probability. -/
theorem sample_drawn (branched : t.Branched) (positive : 0 < t.normSq) :
    (∀ {γ : Type} (draw : γ → ℝ × γ) (source : γ),
      (∀ step < t.width, 0 ≤ yielded draw source step ∧ yielded draw source step < 1) →
      (t.sample draw source).2 = (fun source => (draw source).2)^[t.width] source ∧
      (t.sample draw source).1 < 2 ^ t.width ∧
      (∀ qubit < t.width, ((t.sample draw source).1.testBit qubit = true ↔
        yielded draw source qubit < t.conditional (t.sample draw source).1 qubit)) ∧
      t.amplitude (t.sample draw source).1 ≠ 0) ∧
    ∀ index < 2 ^ t.width,
      {numbers : Fin t.width → ℝ | (∀ qubit, 0 ≤ numbers qubit ∧ numbers qubit < 1) ∧
        (t.sample (listed numbers) 0).1 = index} = t.box index ∧
      volume (t.box index) = ENNReal.ofReal ((t.amplitude index).normSq / t.normSq) := by
  have drawn {γ : Type} (draw : γ → ℝ × γ) (source : γ)
      (unit : ∀ step < t.width, 0 ≤ yielded draw source step ∧ yielded draw source step < 1) :
      Drawn t 0 t.width 0 draw source (t.sample draw source) :=
    (branched.drawing_root positive).drawn branched (Nat.zero_add _) unit
  refine ⟨fun draw source unit => ?_, fun index below => ⟨?_, ?_⟩⟩
  · have result := drawn draw source unit
    refine ⟨result.rest, result.below, fun qubit inside => ?_, result.amplitude⟩
    have selects := result.selects qubit inside
    rwa [Nat.zero_add] at selects
  · ext numbers
    refine Iff.trans (and_congr_right fun unit => ?_) mem_box_iff.symm
    have result := drawn (listed numbers) 0 fun step inside => by
      have same := yielded_listed numbers ⟨step, inside⟩
      change yielded (listed numbers) 0 step = _ at same
      rw [same]
      exact unit _
    have selects : ∀ qubit : Fin t.width,
        ((t.sample (listed numbers) 0).1.testBit qubit = true ↔
          numbers qubit < t.conditional (t.sample (listed numbers) 0).1 qubit) := by
      intro qubit
      have selects := result.selects qubit qubit.isLt
      rwa [Nat.zero_add, yielded_listed] at selects
    constructor
    · rintro rfl
      exact selects
    · exact eq_of_selects result.below below selects
  · have whole := branched.weightWhere_agreeing_zero index
    have sides := prod_sides (whole.symm ▸ positive) t.width
    rw [weightWhere_agreeing_width below, whole] at sides
    rw [box, Real.volume_pi_Ico, ← sides, Finset.prod_range]
    exact (ENNReal.ofReal_prod_of_nonneg fun (qubit : Fin t.width) _ =>
      t.upper_sub_lower_nonneg index qubit).symm

/-- One quarter is not less than zero, but less than one half, the conditional probabilities of the
two qubits. -/
theorem sample_drawn_quarters :
    doubledLeaf.sample (fun step : ℕ => ((1 / 4 : ℝ), step + 1)) 0 = (2, 2) ∧
      volume (doubledLeaf.box 2) = ENNReal.ofReal (1 / 2) := by
  have positive : 0 < doubledLeaf.normSq := normSq_doubledLeaf ▸ by norm_num
  obtain ⟨draws, boxes⟩ := sample_drawn branched_doubledLeaf positive
  have quarter (step : ℕ) : yielded (fun step : ℕ => ((1 / 4 : ℝ), step + 1)) 0 step = 1 / 4 := rfl
  obtain ⟨count, below, selects, -⟩ :=
    draws (fun step : ℕ => ((1 / 4 : ℝ), step + 1)) 0 fun step _ => by
      rw [quarter]
      norm_num
  have never (index : BasisIndex) : doubledLeaf.conditional index 0 = 0 := by
    rw [conditional, weightOfOne, weightWhere_doubledLeaf]
    simp [Nat.testBit]
  have half : doubledLeaf.conditional 0 1 = 1 / 2 := by
    rw [conditional, weightOfOne, weightWhere_doubledLeaf, weightWhere_doubledLeaf,
      if_neg (by decide), if_pos (by decide), if_pos (by decide), if_pos (by decide)]
    norm_num
  constructor
  · refine Prod.ext ?_ count
    have first := selects 0 two_pos
    have second := selects 1 one_lt_two
    rw [quarter, never] at first
    rw [quarter] at second
    generalize (doubledLeaf.sample _ _).1 = index at below first second
    change index < 4 at below
    interval_cases index
    · rw [half] at second
      norm_num at second
    · norm_num at first
    · rfl
    · norm_num at first
  · rw [(boxes 2 (by decide)).2, normSq_amplitude_doubledLeaf, normSq_doubledLeaf]
    norm_num

end AmplitudeTree.Tree
