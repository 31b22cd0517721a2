import AmplitudeTree.Proofs.Register.RangeMeasurement
import AmplitudeTree.Proofs.Register.Session
import AmplitudeTree.Proofs.Tree.Sample

/-!
# Removal of an imposed value

A value can be removed from a range at once, or it can be imposed on the qubits of the range one after
the other, and the range is dropped then.  The first way cuts the tree below every host of the range
and never looks for a product.  The second way makes one: once the value is imposed, the state is the
product of a basis state of the range and what is left for this value.  Factors of a product are unique
up to a phase if one of them has norm one, so both ways leave one state.
-/

namespace AmplitudeTree

open Assignment
open AmplitudeTree.Tree (basisState basisState_congr mass_basisState)

/-! ## Norms of products -/

section Norms

variable {start length width : ℕ} {qubits : List ℕ}

theorem summed_shift (inside : ∀ q ∈ qubits, q < length) (f g : Assignment → ℝ) :
    summed (qubits.map (start + ·))
        (fun bits => f (taken start length bits) * g (dropped start length bits)) =
      fun bits => summed qubits f (taken start length bits) * g (dropped start length bits) := by
  induction qubits generalizing f with
  | nil => rfl
  | cons qubit qubits ih =>
      obtain ⟨here, later⟩ := List.forall_mem_cons.mp inside
      have one : both (start + qubit)
          (fun bits => f (taken start length bits) * g (dropped start length bits)) =
            fun bits => both qubit f (taken start length bits) * g (dropped start length bits) := by
        funext bits
        unfold both
        simp only [taken_update_shift here, dropped_update_shift here, add_mul]
      rw [List.map_cons, summed_cons, summed_cons, one, ih later]

theorem summed_raised (start length : ℕ) (qubits : List ℕ) (f g : Assignment → ℝ) :
    summed (qubits.map (raised start length))
        (fun bits => f (taken start length bits) * g (dropped start length bits)) =
      fun bits => f (taken start length bits) * summed qubits g (dropped start length bits) := by
  induction qubits generalizing g with
  | nil => rfl
  | cons qubit qubits ih =>
      have one : both (raised start length qubit)
          (fun bits => f (taken start length bits) * g (dropped start length bits)) =
            fun bits => f (taken start length bits) * both qubit g (dropped start length bits) := by
        funext bits
        unfold both
        simp only [taken_update_raised, dropped_update_raised, mul_add]
      rw [List.map_cons, summed_cons, summed_cons, one, ih]

/-- The squared norm of a product is the product of the squared norms. -/
theorem mass_productState (le : start + length ≤ width) (first second : Assignment → ℂ) :
    mass width (productState start length first second) =
      mass length first * mass (width - length) second := by
  let weight (bits : Assignment) : ℝ := Complex.normSq (first bits)
  let rest (bits : Assignment) : ℝ := Complex.normSq (second bits)
  have squares (bits : Assignment) :
      Complex.normSq (productState start length first second bits) =
        weight (taken start length bits) * rest (dropped start length bits) := map_mul ..
  have noneTaken : taken start length (fun _ => false) = fun _ => false := funext fun q => ite_self _
  have noneDropped : dropped start length (fun _ => false) = fun _ => false :=
    funext fun q => ite_self _
  rw [mass, funext squares, range_split le, summed_append, summed_append,
    summed_raised start length _ weight rest,
    summed_shift (fun q => List.mem_range.mp) weight, summed_raised, ← summed_append,
    ← range_dropped le]
  dsimp only
  rw [noneTaken, noneDropped]
  rfl

end Norms

/-! ## The part of a state where a range has a value -/

namespace Register

open AmplitudeTree.Action

variable {reg middle left left' : Register ℝ} {range : QubitRange} {value : BasisIndex}
  {state : Assignment → ℂ} {length : ℕ}

/-- What is left of a state whose range has a value, with this value put back. -/
noncomputable def selected (range : QubitRange) (value : BasisIndex) (state : Assignment → ℂ) :
    Assignment → ℂ :=
  productState range.start range.length (basisState value 0 range.length 1)
    (remainder range value state)

theorem selected_apply (range : QubitRange) (value : BasisIndex) (state : Assignment → ℂ)
    (bits : Assignment) : selected range value state bits =
      if ∀ q < range.length, bits (range.start + q) = value.testBit q then state bits else 0 := by
  have reads : (∀ q, 0 ≤ q → q < range.length →
      Assignment.taken range.start range.length bits q = value.testBit q) ↔
        ∀ q < range.length, bits (range.start + q) = value.testBit q := by
    refine forall_congr' fun q => ?_
    rw [forall_prop_of_true (Nat.zero_le q)]
    refine forall_congr' fun inside => ?_
    rw [Assignment.taken, if_pos inside]
  rw [selected, productState, basisState, if_congr reads rfl rfl]
  split
  · next same => rw [one_mul, remainder, filled_dropped same]
  · exact zero_mul _

theorem agrees_range_iff (range : QubitRange) (value index : BasisIndex) :
    agrees range.start 0 range.length value index = true ↔
      ∀ q < range.length, index.testBit (range.start + q) = value.testBit q := by
  simp only [agrees, decide_eq_true_iff, zero_add]

/-- The weight of a value is the squared norm of what is left for it. -/
theorem Sound.weightWhere_agrees (sound : reg.Sound) (inside : range.stop ≤ reg.width)
    (below : value < 2 ^ range.length) :
    reg.weightWhere (agrees range.start 0 range.length value) =
      mass (reg.width - range.length) (remainder range value reg.state) := by
  have whole : reg.weightWhere (agrees range.start 0 range.length value) =
      mass reg.width (selected range value reg.state) := by
    rw [mass_eq_sum]
    refine Finset.sum_congr rfl fun index _ => ?_
    rw [selected_apply, if_congr (agrees_range_iff range value index) rfl rfl,
      Amplitude.normSq_eq, sound.toComplex_represented]
    split
    · rfl
    · exact (map_zero _).symm
  rw [whole, selected, mass_productState inside, mass_basisState _ below, one_mul]

/-! ## What is left without a range -/

/-- The second register is the first one without a range, in a multiple of the
given state of norm one. -/
structure Leaves (reg : Register ℝ) (length : ℕ) (state : Assignment → ℂ) (left : Register ℝ) :
    Prop where
  physical : left.Physical
  width : left.width = reg.width - length
  config : left.config = reg.config
  generator : left.generator = reg.generator
  proportional : Proportional state left.state
  unit : mass left.width left.state = 1

theorem Leaves.settles (leaves : Leaves reg length state left) (settles : Settles left left')
    (generator : left'.generator = left.generator) : Leaves reg length state left' where
  physical := leaves.physical.settles settles
  width := settles.width.trans leaves.width
  config := settles.config.trans leaves.config
  generator := generator.trans leaves.generator
  proportional := settles.state ▸ leaves.proportional
  unit := by rw [settles.width, settles.state, leaves.unit]

theorem Leaves.of_retains (retains : Retains reg middle) (generator : middle.generator = reg.generator)
    (leaves : Leaves middle length state left) : Leaves reg length state left where
  physical := leaves.physical
  width := leaves.width.trans (congrArg (· - length) retains.width)
  config := leaves.config.trans retains.config
  generator := leaves.generator.trans generator
  proportional := leaves.proportional
  unit := leaves.unit

/-- Two ways to leave one state up to a factor leave alike registers. -/
theorem Leaves.alike (first : Leaves reg length state left) (second : Leaves reg length state left') :
    Alike left left' where
  physical := first.physical
  otherPhysical := second.physical
  width := second.width.trans first.width.symm
  config := second.config.trans first.config.symm
  generator := second.generator.trans first.generator.symm
  turned := by
    have unit := second.unit
    rw [second.width, ← first.width] at unit
    exact (Turned.refl state).scaled first.proportional second.proportional first.unit unit

/-! ## A removal at once -/

/-- A removal of a value leaves what there is for it, or fails and keeps the state. -/
theorem Physical.disposeAt_cases (physical : reg.Physical) (inside : range.stop ≤ reg.width)
    (below : value < 2 ^ range.length) :
    (reg.weightWhere (agrees range.start 0 range.length value) ≠ 0 ∧
      ∃ left, (disposeAt range value).runOn reg = (.ok (), left) ∧
        Leaves reg range.length (remainder range value reg.state) left) ∨
    (reg.weightWhere (agrees range.start 0 range.length value) = 0 ∧
      ∃ left, (disposeAt range value).runOn reg = (.error (.impossibleOutcome range.start), left) ∧
        Settles reg left) := by
  have settles := physical.toSound.settles_settledRange range
  have generator : (reg.settledRange range).generator = reg.generator :=
    generator_foldl generator_settle _ _
  have free : ∀ q < range.length, (reg.settledRange range).pending.get? (range.start + q) = none :=
    fun _ => physical.toSound.get?_settledRange
  have run := runOn_disposeAt inside value
  rw [BasisIndex.check_eq_ok.mpr fun _ => below] at run
  change _ = (reg.settledRange range).restricted range value at run
  rw [physical.toSound.weightWhere_agrees inside below, ← settles.state, ← settles.width]
  have settled := physical.settles settles
  have within := inside.trans_eq settles.width.symm
  have lost := settled.restrict_lost within free value
  have kept := settled.restrict_kept within free value
  unfold restricted at run
  generalize reg.settledRange range = before at *
  generalize before.tree.restrict range.start range.length value = result at *
  obtain ⟨found, tree⟩ := result
  cases found with
  | false =>
      obtain ⟨none, keeps⟩ := lost rfl
      exact .inr ⟨by rw [none, mass_zero], _, run, settles.trans keeps⟩
  | true =>
      obtain ⟨cleared, width, one, proportional⟩ := kept rfl
      refine .inl ⟨?_, _, run, ?_⟩
      · obtain ⟨factor, -, multiple⟩ := proportional
        rw [multiple, mass_smul] at one
        exact right_ne_zero_of_mul_eq_one one
      · have leaves : Leaves before range.length (remainder range value before.state)
            (before.cleared range tree) :=
          ⟨cleared, width, rfl, rfl, proportional, width.symm ▸ one⟩
        exact .of_retains settles.toRetains generator
          (leaves.settles cleared.toSound.settles_afterChange rfl)

/-! ## A removal of an imposed value -/

/-- A value that is imposed on a range with some weight makes a product of the state. -/
theorem PartKept.selected (sound : reg.Sound) (leftSound : left.Sound)
    (inside : range.stop ≤ reg.width)
    (kept : PartKept reg (agrees range.start 0 range.length value) left) :
    Proportional (selected range value reg.state) left.state ∧ mass left.width left.state = 1 := by
  obtain ⟨factor, unit, represented⟩ := kept.represented
  refine ⟨⟨factor.toComplex, ?_, funext fun bits => ?_⟩, ?_⟩
  · rw [Amplitude.normSq_eq] at unit
    exact mt (fun none => by rw [none, map_zero]) (left_ne_zero_of_mul_eq_one unit)
  · obtain ⟨index, bound, same⟩ := BasisIndex.exists_testBit reg.width bits
    have whole : left.state bits = left.state index.testBit :=
      (leftSound.state_congr fun q below => same q (below.trans_eq kept.width)).symm
    have reads : agrees range.start 0 range.length value index = true ↔
        ∀ q < range.length, bits (range.start + q) = value.testBit q := by
      rw [agrees_range_iff]
      refine forall₂_congr fun q within => ?_
      rw [same _ ((Nat.add_lt_add_left within range.start).trans_le inside)]
    rw [whole, ← leftSound.toComplex_represented, represented index bound, Pi.smul_apply,
      selected_apply, smul_eq_mul, ← sound.state_congr same, if_congr reads rfl rfl]
    split
    · rw [Amplitude.toComplex_mul, sound.toComplex_represented]
    · rw [mul_zero, Amplitude.toComplex_zero]
  · rw [← leftSound.totalWeight_eq, kept.totalWeight_eq_one]

/-- Dropping one factor of a product leaves the other one. -/
theorem Physical.dispose_product (physical : reg.Physical) (inside : range.stop ≤ reg.width)
    {first second : Assignment → ℂ}
    (reads : ∀ bits other : Assignment, (∀ q < range.length, bits q = other q) →
      first bits = first other)
    (one : mass range.length first = 1)
    (product : Proportional (productState range.start range.length first second) reg.state)
    (unit : mass reg.width reg.state = 1) :
    ∃ left, (dispose range).runOn reg = (.ok (), left) ∧ Leaves reg range.length second left := by
  obtain ⟨factor, nonzero, state⟩ := product
  have factors : reg.state = productState range.start range.length first (factor • second) := by
    rw [state, ← one_smul ℂ first, productState_smul, one_mul, one_smul]
  have positive := physical.tree.normSq_pos_iff.mpr physical.nonzero
  obtain ⟨tree, split⟩ := (physical.toSound.split_iff_separable physical.unitary positive inside).mpr
    ((physical.toSound.separable_iff inside).mpr ⟨_, _, factors⟩)
  obtain ⟨rest, parted⟩ : ∃ rest, reg.tree.split range.start range.length = (some tree, rest) :=
    ⟨_, Prod.ext split rfl⟩
  have parts := physical.toSound.parts physical.toSound inside parted
  obtain ⟨part, left, partOne⟩ := physical.parts physical.toSound inside parted
  have products := parts.state
  have turned : Turned (productState range.start range.length (reg.takenInto reg range tree).state
      (reg.without range rest).state)
        (productState range.start range.length first (factor • second)) := by
    rw [← products, ← factors]
    exact .refl _
  obtain ⟨-, seconds⟩ := turned.factors parts.part_congr reads part.state_ne_zero left.state_ne_zero
    (one.trans partOne.symm) (partOne.trans_ne one_ne_zero)
  have run := runOn_dispose inside
  rw [parted] at run
  refine ⟨_, run, Leaves.settles ⟨left, parts.leftWidth, rfl, rfl, ?_, ?_⟩
    left.toSound.settles_afterChange rfl⟩
  · exact Proportional.trans ⟨factor, nonzero, rfl⟩ seconds.symm.proportional
  · rw [products, mass_productState inside, partOne, one_mul] at unit
    rwa [parts.leftWidth]

noncomputable def disposeImposed (range : QubitRange) (value : BasisIndex) : Action ℝ Unit := do
  let _ ← measureRange range (some value)
  dispose range

/-- A value without weight cannot be imposed on a range. -/
theorem Physical.measureRange_weightless (physical : reg.Physical) (inside : range.stop ≤ reg.width)
    (none : reg.weightWhere (agrees range.start 0 range.length value) = 0) :
    ∃ e left, (measureRange range (some value)).runOn reg = (.error e, left) := by
  have first : reg.weightWhere (agrees range.start 0 0 value) ≠ 0 := by
    rw [weightWhere_congr fun index _ => agrees_zero range.start 0 value index, weightWhere_true]
    exact physical.totalWeight_pos.ne'
  classical
  have weightless : ∃ count, reg.weightWhere (agrees range.start 0 count value) = 0 :=
    ⟨range.length, none⟩
  obtain ⟨count, found, earlier⟩ := Nat.findX weightless
  have most : count ≤ range.length := not_lt.mp fun later => earlier _ later none
  cases count with
  | zero => exact absurd found first
  | succ count =>
      obtain ⟨left, run, -⟩ := (@Physical.measureFrom_imposed _ _ 0 physical _ inside value).2 count
        most (earlier count count.lt_succ_self) found
      exact ⟨_, left, (runOn_measureRange inside _).trans run⟩

/-- A value with some weight is imposed and the range is dropped.  One without weight is refused. -/
theorem Physical.disposeImposed_cases (physical : reg.Physical) (inside : range.stop ≤ reg.width)
    (nonempty : range.length ≠ 0) (below : value < 2 ^ range.length) :
    (reg.weightWhere (agrees range.start 0 range.length value) ≠ 0 →
      ∃ left, (disposeImposed range value).runOn reg = (.ok (), left) ∧
        Leaves reg range.length (remainder range value reg.state) left) ∧
    (reg.weightWhere (agrees range.start 0 range.length value) = 0 →
      ∃ e left, (disposeImposed range value).runOn reg = (.error e, left)) := by
  constructor
  · intro some
    obtain ⟨middle, run, after, middlePhysical, generator⟩ :=
      (@Physical.measureFrom_imposed _ _ 0 physical _ inside value).1 some
    have retains : Retains reg middle := by
      have keeps := keeps_measureFrom range.start 0 (.some value) range.length reg physical.toSound
      rwa [run] at keeps
    obtain ⟨product, unit⟩ :=
      (after.2 (Nat.pos_of_ne_zero nonempty)).selected physical.toSound middlePhysical.toSound inside
    obtain ⟨left, drops, leaves⟩ := middlePhysical.dispose_product
      (inside.trans_eq retains.width.symm) (fun _ _ => basisState_congr value 0 1)
      (mass_basisState _ below) product unit
    refine ⟨left, ?_, leaves.of_retains retains generator⟩
    rw [disposeImposed, runOn_bind, runOn_measureRange inside, run]
    exact drops
  · intro none
    obtain ⟨e, left, run⟩ := physical.measureRange_weightless inside none
    exact ⟨e, left, runOn_bind_of_error run _⟩

/-! ## Both ways -/

/-- The amplitudes with a value in a range are kept without the range, brought to norm one. -/
structure RangeDropped (reg : Register ℝ) (range : QubitRange) (value : BasisIndex)
    (left : Register ℝ) : Prop where
  width : left.width = reg.width - range.length
  represented : ∃ factor : Amplitude ℝ,
    factor.normSq * reg.weightWhere (agrees range.start 0 range.length value) = 1 ∧
    ∀ index, agrees range.start 0 range.length value index = true →
      left.represented (range.remove index) = factor * reg.represented index

theorem Leaves.rangeDropped (sound : reg.Sound) (inside : range.stop ≤ reg.width)
    (below : value < 2 ^ range.length)
    (leaves : Leaves reg range.length (remainder range value reg.state) left) :
    RangeDropped reg range value left where
  width := leaves.width
  represented := by
    obtain ⟨factor, -, state⟩ := leaves.proportional
    refine ⟨.ofComplex factor, ?_, fun index holds => Amplitude.toComplex_injective ?_⟩
    · rw [Amplitude.normSq_eq, Amplitude.toComplex_ofComplex, sound.weightWhere_agrees inside below,
        ← leaves.width, ← mass_smul, ← state, leaves.unit]
    · rw [leaves.physical.toSound.toComplex_represented, state, Pi.smul_apply, smul_eq_mul,
        Amplitude.toComplex_mul, Amplitude.toComplex_ofComplex, sound.toComplex_represented,
        QubitRange.testBit_remove_eq_dropped, remainder,
        filled_dropped ((agrees_range_iff range value index).mp holds)]

/-- Removing a value of a range at once, and imposing it before dropping the range, succeed if and
only if the value has some weight, and leave the same state up to a global phase.  A removal that
fails keeps the state. -/
theorem disposeAt_imposed (ready : reg.Ready) (inside : range.stop ≤ reg.width)
    (nonempty : range.length ≠ 0) (below : value < 2 ^ range.length) :
    let direct := (disposeAt range value).runOn reg
    let imposed := (disposeImposed range value).runOn reg
    (direct.1 = .ok () ↔ imposed.1 = .ok ()) ∧
    (direct.1 = .ok () ↔ reg.weightWhere (agrees range.start 0 range.length value) ≠ 0) ∧
    (direct.1 = .ok () →
      imposed.2.SamePhase direct.2 ∧ RangeDropped reg range value direct.2) ∧
    (direct.1 ≠ .ok () →
      direct.1 = .error (.impossibleOutcome range.start) ∧ Unchanged reg direct.2) := by
  intro direct imposed
  have physical := ready.physical
  obtain ⟨returns, fails⟩ := physical.disposeImposed_cases inside nonempty below
  rcases physical.disposeAt_cases inside below with ⟨some, left, removed, leaves⟩ |
    ⟨none, left, refused, settles⟩
  · obtain ⟨left', dropped, leaves'⟩ := returns some
    have direct_eq : direct = (.ok (), left) := removed
    have imposed_eq : imposed = (.ok (), left') := dropped
    rw [direct_eq, imposed_eq]
    exact ⟨iff_of_true rfl rfl, iff_of_true rfl some,
      fun _ => ⟨(leaves'.alike leaves).samePhase, leaves.rangeDropped physical.toSound inside below⟩,
      fun failed => absurd rfl failed⟩
  · obtain ⟨e, left', stopped⟩ := fails none
    have direct_eq : direct = (.error (.impossibleOutcome range.start), left) := refused
    have imposed_eq : imposed = (.error e, left') := stopped
    rw [direct_eq, imposed_eq]
    exact ⟨iff_of_false nofun nofun, iff_of_false nofun (absurd none), nofun,
      fun _ => ⟨rfl, settles.unchanged physical.toSound⟩⟩

/-- Two qubits that are never equal, with a Hadamard gate waiting on the second one; the first one
is removed at 1. -/
theorem disposeAt_imposed_three_four :
    ∃ fresh reg : Register ℝ, create 2 0 exactConfig 0 = .ok fresh ∧
      (setAmplitudes #[0, ⟨3, 0⟩, ⟨4, 0⟩, 0]).runOn fresh = (.ok (), reg) ∧
      let waiting := ((applyWhere [] true .hadamard 1).runOn reg).2
      ∃ left left', (disposeAt ⟨0, 1⟩ 1).runOn waiting = (.ok (), left) ∧
        (disposeImposed ⟨0, 1⟩ 1).runOn waiting = (.ok (), left') ∧
        left'.SamePhase left ∧ left.width = 1 := by
  obtain ⟨fresh, reg, made, run, ready, width, -, -, represented⟩ :=
    exists_ready_of_amplitudes 2 (by decide) #[0, ⟨3, 0⟩, ⟨4, 0⟩, 0] rfl
      ⟨⟨3, 0⟩, by simp, fun zero => three_ne_zero (congrArg Amplitude.re zero)⟩
  have one : 1 < reg.width := by
    rw [width]
    decide
  have waits : ((applyWhere [] true .hadamard 1).runOn reg).2 = reg.waiting .hadamard 1 := by
    rw [runOn_applyWhere, List.isEmpty_nil, if_pos rfl, runOn_apply, if_pos one]
  have waitingReady := ready.gate Gate.hadamard_isUnitary [] true 1
  rw [waits] at waitingReady
  have real (x : ℝ) : (⟨x, 0⟩ : Amplitude ℝ).normSq = x * x := by simp [Amplitude.normSq]
  have squares (index : BasisIndex) (below : index < 4) :
      (reg.represented index).normSq = if index = 1 then 9 else if index = 2 then 16 else 0 := by
    rw [represented index below]
    interval_cases index <;> norm_num [real, Amplitude.normSq_zero]
  have weight : (reg.waiting .hadamard 1).weightWhere (agrees 0 0 1 1) = 9 := by
    have single (index : BasisIndex) : agrees 0 0 1 1 index = reads 0 true index := by
      rw [agrees_succ, agrees_zero, Bool.and_true]
      rfl
    rw [weightWhere_congr fun index _ => single index,
      ready.physical.weightWhere_reads_waiting Gate.hadamard_isUnitary one (by decide), weightWhere,
      width]
    norm_num [Finset.sum_range_succ, squares, reads]
  have inside : (QubitRange.mk 0 1).stop ≤ (reg.waiting .hadamard 1).width :=
    (show 1 ≤ 2 by decide).trans_eq width.symm
  obtain ⟨same, possible, leaves, -⟩ :=
    disposeAt_imposed waitingReady inside (by decide) (show 1 < 2 ^ 1 by decide)
  have removed := possible.mpr (weight.trans_ne (by norm_num))
  obtain ⟨samePhase, dropped⟩ := leaves removed
  refine ⟨fresh, reg, made, run, ?_⟩
  rw [waits]
  refine ⟨_, _, Prod.ext removed rfl, Prod.ext (same.mp removed) rfl, samePhase, ?_⟩
  rw [dropped.width]
  exact congrArg (· - 1) width

end Register

end AmplitudeTree
