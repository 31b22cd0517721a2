import AmplitudeTree.Proofs.Register.Formed
import AmplitudeTree.Proofs.Register.Refusal
import AmplitudeTree.Proofs.Register.Session
import AmplitudeTree.Proofs.Tree.TwoQubits

/-!
# Imposed outcomes at a threshold

An outcome that is imposed on a qubit is refused if its probability does not exceed the threshold, and
nothing but settled gates has changed then.  It is also refused if the collapse keeps nothing.  The
gate that waits on the qubit is gone by then, and the probability may well exceed the threshold: just
in case the threshold is zero neither happens.
-/

namespace AmplitudeTree.Register

open AmplitudeTree.Action

variable {reg left : Register ℝ} {qubit : ℕ} {outcome : Bool} {threshold : ℝ}

/-! ## The course of a measurement -/

def RefusesOutcome (reg : Register ℝ) (qubit : ℕ) (outcome : Bool) (left : Register ℝ) : Prop :=
  (measureQubit qubit (some outcome) true).runOn reg = (.error (.impossibleOutcome qubit), left)

theorem threshold_settleUnlessDiagonal (reg : Register ℝ) (qubit : ℕ) :
    (reg.settleUnlessDiagonal qubit).threshold = reg.threshold := by
  unfold settleUnlessDiagonal
  split
  · rfl
  · split
    · rfl
    · unfold settle
      split <;> rfl

theorem runOn_imposed (inside : qubit < reg.width) (outcome : Bool) :
    (measureQubit qubit (some outcome) true).runOn reg =
      if (reg.settleUnlessDiagonal qubit).likelihood qubit outcome ≤ reg.threshold then
        (.error (.impossibleOutcome qubit), reg.settleUnlessDiagonal qubit)
      else (collapseTo qubit outcome).runOn (reg.settleUnlessDiagonal qubit) := by
  have run := runOn_measureQubit_at inside (some outcome) true
  have chosen (one : ℝ) : (reg.settleUnlessDiagonal qubit).choice (some outcome) one = outcome := rfl
  simp only [chosen, threshold_settleUnlessDiagonal, Option.isSome_some, Bool.and_true,
    Scalar.le_iff] at run
  rw [run]
  split <;> rfl

/-- How imposing an outcome on a qubit ends. -/
theorem imposed_cases (inside : qubit < reg.width) (outcome : Bool) :
    let settled := reg.settleUnlessDiagonal qubit
    (settled.likelihood qubit outcome ≤ reg.threshold → RefusesOutcome reg qubit outcome settled) ∧
    (reg.threshold < settled.likelihood qubit outcome →
      ((settled.tree.collapse qubit outcome).1 = false →
        RefusesOutcome reg qubit outcome (settled.collapsed qubit outcome)) ∧
      ((settled.tree.collapse qubit outcome).1 = true →
        (measureQubit qubit (some outcome) true).runOn reg =
          (.ok outcome, (settled.collapsed qubit outcome).afterChange))) := by
  intro settled
  have run := runOn_imposed inside outcome
  refine ⟨fun unlikely => run.trans (if_pos unlikely), fun likely => ?_⟩
  rw [if_neg (not_le.mpr likely), runOn_collapseTo] at run
  refine ⟨fun lost => run.trans (if_neg ?_), fun kept => run.trans (if_pos kept)⟩
  rw [lost]
  exact Bool.false_ne_true

theorem refusesOutcome_iff (inside : qubit < reg.width) (outcome : Bool) :
    (∃ left, RefusesOutcome reg qubit outcome left) ↔
      (reg.settleUnlessDiagonal qubit).likelihood qubit outcome ≤ reg.threshold ∨
        ((reg.settleUnlessDiagonal qubit).tree.collapse qubit outcome).1 = false := by
  obtain ⟨unlikely, likely⟩ := imposed_cases inside outcome
  rcases le_or_gt ((reg.settleUnlessDiagonal qubit).likelihood qubit outcome) reg.threshold with
    within | above
  · exact iff_of_true ⟨_, unlikely within⟩ (.inl within)
  · obtain ⟨lost, kept⟩ := likely above
    rw [or_iff_right (not_le.mpr above)]
    refine ⟨fun ⟨left, refused⟩ => ?_, fun none => ⟨_, lost none⟩⟩
    by_contra some
    cases (kept (Bool.not_eq_false _ ▸ some)).symm.trans refused

/-! ## Exact arithmetic -/

/-- With exact arithmetic the attainable registers are the reachable ones. -/
theorem Attainable.reachable {fits : Register ℝ → ℕ → Prop}
    (attainable : Attainable (fun config => config.separability = 0) fits reg) : reg.Reachable := by
  induction attainable with
  | create admitted made => exact .create admitted made
  | withFactory _ factory ih => exact ih.withFactory factory
  | gate _ controls value gate target ih => exact ih.gate controls value gate target
  | setBasis _ index phase ih => exact ih.setBasis index phase
  | setAmplitudes _ amplitudes ih => exact ih.setAmplitudes amplitudes
  | settled _ ih => exact ih.settled
  | normalize _ ih => exact ih.normalize
  | reduce _ ih => exact ih.reduce
  | prob _ qubit ih => exact ih.prob qubit
  | measureQubit _ qubit forced collapse ih => exact ih.measureQubit qubit forced collapse
  | sampleIndex _ collapse ih => exact ih.sampleIndex collapse
  | toVector _ required ih => exact ih.toVector required
  | withVector _ required op ih => exact ih.withVector required op
  | compose _ _ start ih otherIh => exact ih.compose otherIh start
  | composeEnd _ _ ih otherIh => exact ih.compose otherIh _
  | allocate _ start length _ ih => exact ih.allocate start length
  | decomposeInto _ _ start ih otherIh => exact ih.decomposeInto otherIh start
  | decomposedInto _ _ start parted ih otherIh => exact ih.decomposedInto otherIh start parted
  | decompose _ range ih => exact ih.decompose range
  | decomposed _ range parted ih => exact ih.decomposed range parted
  | dispose _ range ih => exact ih.dispose range
  | disposeAt _ range value ih => exact ih.disposeAt range value

/-- A register of norm one on which only unitary gates wait, after any sequence of
actions at a threshold. -/
structure UnitAt (threshold : ℝ) (reg : Register ℝ) : Prop where
  attainable : Attainable (fun config => config.separability = threshold) (fun _ _ => True) reg
  unitary : reg.pending.Unitary
  normSq_eq : reg.normSq = 1

/-- With exact arithmetic a collapse to an outcome of positive probability keeps something. -/
theorem UnitAt.collapse_kept (unit : reg.UnitAt 0) (inside : qubit < reg.width)
    (likely : 0 < (reg.settleUnlessDiagonal qubit).likelihood qubit outcome) :
    ((reg.settleUnlessDiagonal qubit).tree.collapse qubit outcome).1 = true := by
  have physical := (Ready.mk unit.attainable.reachable unit.unitary
    (unit.normSq_eq.symm ▸ one_pos)).physical
  have settles := physical.toSound.settles_settleUnlessDiagonal qubit
  have settled := physical.toSound.settledOn qubit
  have within := inside.trans_eq settles.width.symm
  exact (physical.settles settles).collapse_kept settled within
    ((physical.settles settles).projected_ne_zero settled within likely)

/-! ## Two turned qubits -/

theorem turn_not_diagonal {x y : ℝ} (large : threshold < y * y) :
    (Gate.turn x y).isDiagonal threshold = false := by
  have lower : (Amplitude.ofReal y).negligible threshold = false := by
    rw [Amplitude.negligible_eq_false, Amplitude.normSq_ofReal]
    exact large
  rw [Gate.isDiagonal, show (Gate.turn x y).bottomLeft = .ofReal y from rfl, lower, Bool.and_false]

theorem phaseS_isDiagonal (nonneg : 0 ≤ threshold) :
    (Gate.phaseS : Gate ℝ).isDiagonal threshold = true := by
  have null : (0 : Amplitude ℝ).negligible threshold = true := by
    rw [Amplitude.negligible_iff, Amplitude.toComplex_zero, Complex.normSq_zero]
    exact nonneg
  exact Bool.and_eq_true_iff.mpr ⟨null, null⟩

theorem phaseS_not_identity (small : threshold < 2) :
    (Gate.phaseS : Gate ℝ).isIdentity threshold = false := by
  have apart : ((1 : Amplitude ℝ) - ⟨0, 1⟩).negligible threshold = false := by
    have distance : Complex.normSq ((1 : Amplitude ℝ) - ⟨0, 1⟩).toComplex = 2 := by
      rw [Amplitude.toComplex_sub, Amplitude.toComplex_one, Complex.normSq_apply]
      norm_num
    rw [Amplitude.negligible_eq_false, distance]
    exact small
  have scalar : (Gate.phaseS : Gate ℝ).isScalar threshold = false :=
    (congrArg (_ && ·) apart).trans (Bool.and_false _)
  rw [Gate.isIdentity, scalar, Bool.false_and]

/-- An attainable register over a tree on which no gate waits. -/
structure Idle (threshold : ℝ) (t : Tree ℝ) (reg : Register ℝ) : Prop where
  attainable : Attainable (fun config => config.separability = threshold) (fun _ _ => True) reg
  threshold_eq : reg.threshold = threshold
  tree_eq : reg.tree = t
  slots : reg.pending.width = t.width
  free : ∀ q, reg.pending.get? q = none

variable {t t' : Tree ℝ}

theorem Idle.get?_waiting (idle : reg.Idle threshold t) (inside : qubit < t.width) {gate : Gate ℝ}
    (acts : gate.isIdentity threshold = false) :
    (reg.waiting gate qubit).pending.get? qubit = some gate := by
  refine (PendingGates.get?_append_self (inside.trans_eq idle.slots.symm) gate _).trans ?_
  rw [idle.free, idle.threshold_eq]
  exact if_neg (acts ▸ Bool.false_ne_true)

theorem Idle.get?_waiting_of_ne (idle : reg.Idle threshold t) {other : ℕ} (different : other ≠ qubit)
    (gate : Gate ℝ) : (reg.waiting gate qubit).pending.get? other = none :=
  (PendingGates.get?_append_of_ne different gate _).trans (idle.free other)

theorem Idle.attainable_waiting (idle : reg.Idle threshold t) (inside : qubit < t.width)
    (gate : Gate ℝ) :
    Attainable (fun config => config.separability = threshold) (fun _ _ => True)
      (reg.waiting gate qubit) := by
  have requested := idle.attainable.gate [] true gate qubit
  rw [runOn_applyWhere, if_pos List.isEmpty_nil, runOn_apply,
    if_pos (by rwa [width, idle.tree_eq])] at requested
  exact requested

theorem Idle.settleAll_eq (idle : reg.Idle threshold t) : reg.settleAll = reg := by
  rw [settleAll, PendingGates.not_any_of_free idle.free, if_neg Bool.false_ne_true]

/-- A turn of a qubit that is settled because its probability is asked for. -/
theorem Idle.turn (idle : reg.Idle threshold t) {x y : ℝ} (inside : qubit < t.width)
    (large : threshold < y * y) (applied : t.apply (.turn x y) [] qubit = t')
    (kept : t'.reduceIfBloated = t') :
    ∃ left : Register ℝ, left.Idle threshold t' ∧ left.config = reg.config := by
  have turns : (Gate.turn x y).isIdentity threshold = false := by
    rw [Gate.isIdentity, Gate.isScalar, turn_not_diagonal large, Bool.false_and, Bool.false_and]
  have waits := idle.get?_waiting inside turns
  have settled : (reg.waiting (.turn x y) qubit).settleUnlessDiagonal qubit =
      { reg.waiting (.turn x y) qubit with
        pending := (reg.waiting (.turn x y) qubit).pending.erase qubit
        tree := t' } := by
    rw [settleUnlessDiagonal, waits]
    dsimp only
    rw [show (reg.waiting (.turn x y) qubit).threshold = threshold from idle.threshold_eq,
      turn_not_diagonal large, if_neg Bool.false_ne_true, settle, waits]
    dsimp only
    rw [Tree.settle, show (reg.waiting (.turn x y) qubit).tree = t from idle.tree_eq, applied, kept]
  have attainable := (idle.attainable_waiting inside (.turn x y)).prob qubit
  rw [runOn_prob (by rwa [width, show (reg.waiting (.turn x y) qubit).tree = t from idle.tree_eq]),
    settled] at attainable
  refine ⟨_, ⟨attainable, idle.threshold_eq, rfl, ?_, fun q => ?_⟩, rfl⟩
  · rw [PendingGates.width_erase]
    refine (PendingGates.width_append ..).trans (idle.slots.trans ?_)
    rw [← applied]
    rfl
  · by_cases same : q = qubit
    · rw [same, PendingGates.get?_erase_self]
    · rw [PendingGates.get?_erase_of_ne same]
      exact idle.get?_waiting_of_ne same _

theorem exists_turned {x y z : ℝ} (spread : Tree.Spread threshold x y z) :
    ∃ reg : Register ℝ, reg.Idle threshold (Tree.turnedTree threshold x y z 11) ∧
      reg.config = { exactConfig with separability := threshold } := by
  have admitted : Config.validate { exactConfig with separability := threshold } = .ok () :=
    validate_withSeparability spread.nonneg (by linarith [spread.small]) true
  obtain ⟨reg, made⟩ := exists_create admitted (by decide : 2 ≤ 128) (rfl : BasisIndex.check 0 2 = _) 0
  have fresh : reg.Idle threshold (Tree.turnedTree threshold x y z 4) ∧
      reg.config = { exactConfig with separability := threshold } := by
    have attainable : Attainable (fun config => config.separability = threshold) (fun _ _ => True)
        reg := .create rfl made
    obtain ⟨-, -, generator, rfl⟩ := eq_of_create made
    exact ⟨⟨attainable, rfl, rfl, rfl, PendingGates.get?_empty 2⟩, rfl⟩
  obtain ⟨idle, config⟩ := fresh
  obtain ⟨second, secondIdle, same⟩ := idle.turn (by decide : 1 < 2) spread.high spread.apply_second
    (if_neg (by decide : ¬512 < 8))
  obtain ⟨first, firstIdle, same'⟩ := secondIdle.turn (by decide : 0 < 2) spread.half
    spread.apply_first (if_neg (by decide : ¬512 < 11))
  exact ⟨first, firstIdle, same'.trans (same.trans config)⟩

/-- On a turned qubit with a diagonal gate, 1 is refused although its probability is above the
threshold, and the gate is lost. -/
theorem exists_lost {x y z : ℝ} (spread : Tree.Spread threshold x y z)
    (share : z * z * (y * y) ≤ threshold) :
    ∃ reg : Register ℝ, reg.UnitAt threshold ∧ reg.width = 2 ∧ reg.threshold = threshold ∧
      reg.settleUnlessDiagonal 1 = reg ∧ reg.pending.get? 1 = some .phaseS ∧
      reg.likelihood 1 true = y * y ∧ (reg.tree.collapse 1 true).1 = false := by
  obtain ⟨idle, turned, -⟩ := exists_turned spread
  have small : threshold < 2 := by linarith [spread.small]
  have inside : 1 < (Tree.turnedTree threshold x y z 11).width := Nat.one_lt_two
  have waits := turned.get?_waiting inside (phaseS_not_identity small)
  have tree : (idle.waiting .phaseS 1).tree = Tree.turnedTree threshold x y z 11 := turned.tree_eq
  have thresholds : (idle.waiting .phaseS 1).threshold = threshold := turned.threshold_eq
  refine ⟨idle.waiting .phaseS 1, ⟨turned.attainable_waiting inside _, ?_, ?_⟩, ?_, thresholds, ?_,
    waits, ?_, ?_⟩
  · intro q gate found
    by_cases same : q = 1
    · rw [same, waits] at found
      cases found
      exact Gate.phaseS_isUnitary
    · cases (turned.get?_waiting_of_ne same .phaseS).symm.trans found
  · rw [normSq, tree, spread.normSq_eq]
  · rw [width, tree]
    rfl
  · rw [settleUnlessDiagonal, waits]
    dsimp only
    rw [thresholds, phaseS_isDiagonal spread.nonneg, if_pos rfl]
  · rw [likelihood, if_pos rfl, tree, spread.prob_eq]
  · rw [tree, spread.formed.collapse_eq_false_iff inside]
    exact spread.kept_eq_zero share

/-- At every positive threshold below one half a more probable outcome may be refused, and the
waiting gate lost. -/
theorem exists_refused (positive : 0 < threshold) (small : threshold < 1 / 2) :
    ∃ reg left : Register ℝ, reg.UnitAt threshold ∧ 1 < reg.width ∧ RefusesOutcome reg 1 true left ∧
      threshold < (reg.settleUnlessDiagonal 1).likelihood 1 true ∧
      left.pending.get? 1 ≠ (reg.settleUnlessDiagonal 1).pending.get? 1 := by
  obtain ⟨x, y, z, spread, share⟩ := Tree.exists_spread positive small
  obtain ⟨reg, unit, width, thresholds, settled, waits, likelihood, lost⟩ := exists_lost spread share
  have inside : 1 < reg.width := width ▸ Nat.one_lt_two
  have likely := (imposed_cases inside true).2
  rw [settled, likelihood, thresholds] at likely
  refine ⟨reg, reg.collapsed 1 true, unit, inside, (likely spread.high).1 lost, ?_, ?_⟩
  · rw [settled, likelihood]
    exact spread.high
  · rw [settled, waits, show (reg.collapsed 1 true).pending = reg.pending.erase 1 from rfl,
      PendingGates.get?_erase_self]
    exact nofun

/-! ## Every register -/

/-- When an imposed outcome is refused: if its probability does not exceed the threshold, which leaves
the settled register, and if the collapse keeps nothing, which loses the waiting gate.  Below one half
some register meets the latter case just in case the threshold is positive. -/
theorem imposed_outcome_refused (nonneg : 0 ≤ threshold) :
    (∀ reg : Register ℝ, reg.threshold = threshold → ∀ qubit < reg.width, ∀ outcome,
      let settled := reg.settleUnlessDiagonal qubit
      let collapsed := settled.collapsed qubit outcome
      (prob qubit).runOn reg = (.ok (settled.likelihood qubit true), settled) ∧
      (settled.likelihood qubit outcome ≤ threshold → RefusesOutcome reg qubit outcome settled) ∧
      (threshold < settled.likelihood qubit outcome →
        ((settled.tree.collapse qubit outcome).1 = true →
          (measureQubit qubit (some outcome) true).runOn reg = (.ok outcome, collapsed.afterChange)) ∧
        ((settled.tree.collapse qubit outcome).1 = false →
          RefusesOutcome reg qubit outcome collapsed ∧ collapsed.pending.get? qubit = none))) ∧
    (threshold < 1 / 2 →
      (∀ reg : Register ℝ,
        Attainable (fun config => config.separability = threshold) (fun _ _ => True) reg →
        ∀ qubit < reg.width, ∀ outcome,
          let settled := reg.settleUnlessDiagonal qubit
          (settled.tree.collapse qubit outcome).1 = false ↔
            settled.tree.unfold.kept threshold outcome qubit = 0) ∧
      ((∀ reg : Register ℝ, reg.UnitAt threshold → ∀ qubit < reg.width, ∀ outcome,
          (∃ left, RefusesOutcome reg qubit outcome left) ↔
            (reg.settleUnlessDiagonal qubit).likelihood qubit outcome ≤ threshold) ↔
        threshold = 0) ∧
      ((∀ reg : Register ℝ, reg.UnitAt threshold → ∀ qubit < reg.width, ∀ outcome left,
          RefusesOutcome reg qubit outcome left →
            left.pending.get? qubit = (reg.settleUnlessDiagonal qubit).pending.get? qubit) ↔
        threshold = 0)) := by
  refine ⟨fun reg thresholds qubit inside outcome => ?_, fun small => ⟨?_, ⟨?_, ?_⟩, ⟨?_, ?_⟩⟩⟩
  · obtain ⟨unlikely, likely⟩ := imposed_cases inside outcome
    rw [thresholds] at unlikely likely
    exact ⟨runOn_prob inside, unlikely, fun above => ⟨(likely above).2, fun lost =>
      ⟨(likely above).1 lost, PendingGates.get?_erase_self _ _⟩⟩⟩
  · intro reg attainable qubit inside outcome
    have formed := (attainable.prob qubit).holds (stable_formed small)
    rw [runOn_prob inside] at formed
    exact formed.tree.collapse_eq_false_iff
      (inside.trans_eq (width_settleUnlessDiagonal reg qubit).symm) outcome
  · intro decides
    by_contra nonzero
    obtain ⟨reg, left, unit, inside, refused, likely, -⟩ :=
      exists_refused (lt_of_le_of_ne nonneg (Ne.symm nonzero)) small
    exact absurd ((decides reg unit 1 inside true).mp ⟨left, refused⟩) (not_le.mpr likely)
  · rintro rfl reg unit qubit inside outcome
    have thresholds : reg.threshold = 0 := unit.attainable.reachable.sound.threshold_eq
    rw [refusesOutcome_iff inside, thresholds]
    refine or_iff_left_of_imp fun lost => ?_
    by_contra above
    exact Bool.false_ne_true (lost.symm.trans (unit.collapse_kept inside (not_le.mp above)))
  · intro survives
    by_contra nonzero
    obtain ⟨reg, left, unit, inside, refused, -, lost⟩ :=
      exists_refused (lt_of_le_of_ne nonneg (Ne.symm nonzero)) small
    exact lost (survives reg unit 1 inside true left refused)
  · rintro rfl reg unit qubit inside outcome left refused
    have thresholds : reg.threshold = 0 := unit.attainable.reachable.sound.threshold_eq
    obtain ⟨unlikely, likely⟩ := imposed_cases inside outcome
    rw [thresholds] at unlikely likely
    rcases le_or_gt ((reg.settleUnlessDiagonal qubit).likelihood qubit outcome) 0 with within | above
    · cases (unlikely within).symm.trans refused
      rfl
    · cases ((likely above).2 (unit.collapse_kept inside above)).symm.trans refused

/-- Two qubits, 0 or 1 with probability one half, at a threshold of three tenths: the second one
cannot be 1, and its gate is lost. -/
theorem imposed_outcome_refused_halves :
    (0 : ℝ) ≤ 3 / 10 ∧ ∃ reg left : Register ℝ, reg.UnitAt (3 / 10) ∧
      (prob 1).runOn reg = (.ok (1 / 2), reg) ∧ reg.pending.get? 1 = some .phaseS ∧
      RefusesOutcome reg 1 true left ∧ left.pending.get? 1 = none := by
  have square : √(1 / 2) * √(1 / 2) = (1 / 2 : ℝ) := Real.mul_self_sqrt (by norm_num)
  have spread := Tree.spread_halves
  obtain ⟨reg, unit, width, thresholds, settled, waits, likelihood, lost⟩ :=
    exists_lost spread (by rw [square]; norm_num)
  obtain ⟨asked, -, likely⟩ := (imposed_outcome_refused (by norm_num : (0 : ℝ) ≤ 3 / 10)).1 reg
    thresholds 1 (width ▸ Nat.one_lt_two) true
  rw [settled, likelihood, square] at asked likely
  obtain ⟨refused, freed⟩ := (likely (by norm_num)).2 lost
  exact ⟨by norm_num, reg, _, unit, asked, waits, refused, freed⟩

end AmplitudeTree.Register
