import AmplitudeTree.Proofs.Register.Parity

/-!
# Reading the probability of a basis state

The squared modulus of an amplitude is read together with a correction: an amplitude of modulus one or
more is taken for all of the state, and the register is set to its basis state.  This does no harm to
states of norm at most one.
-/

namespace AmplitudeTree.Register

open AmplitudeTree.Action

variable {reg : Register ℝ} {index : BasisIndex}

theorem Sound.represented_reset (sound : reg.Sound) (below : index < 2 ^ reg.width)
    (phase : Amplitude ℝ) {other : BasisIndex} (otherBelow : other < 2 ^ reg.width) :
    (reg.reset index phase).represented other = if other = index then phase else 0 := by
  have reset : (reg.reset index phase).Sound := (sound.basis index phase).sound
  apply Amplitude.toComplex_injective
  rw [reset.toComplex_represented, sound.reset_state, Pi.smul_apply, smul_eq_mul, Tree.basisState]
  by_cases same : other = index
  · rw [if_pos same, if_pos fun _ _ _ => by rw [same], mul_one]
  · rw [if_neg same, if_neg, mul_zero, Amplitude.toComplex_zero]
    intro agree
    exact same (BasisIndex.eq_of_testBit otherBelow below fun q inside => agree q (Nat.zero_le q) inside)

theorem phaseOf_of_one_le {a : Amplitude ℝ} (whole : 1 ≤ a.normSq) :
    phaseOf a = a.dividedBy a.norm := by
  refine if_pos ((Scalar.lt_iff _ _).mpr ?_)
  rw [Amplitude.norm_eq, Complex.norm_def, ← Amplitude.normSq_eq]
  exact Real.sqrt_pos.mpr (one_pos.trans_le whole)

/-- The course of a reading: an amplitude of modulus one or more replaces the state. -/
theorem Sound.runOn_probIndex (sound : reg.Sound) (below : index < 2 ^ reg.width) :
    (probIndex index).runOn reg =
      if 1 ≤ (reg.represented index).normSq then
        (.ok 1, reg.settleAll.reset index (phaseOf (reg.represented index)))
      else (.ok (reg.represented index).normSq, reg.settleAll) := by
  have settles := sound.settles_settleAll
  have exact : reg.settleAll.threshold = 0 := settles.threshold_eq.trans sound.threshold_eq
  have addressed : reg.checkIndex index = .ok () := by
    rw [checkIndex, BasisIndex.check_eq_ok.mpr fun _ => below]
    rfl
  have settledAddressed : reg.settleAll.checkIndex index = .ok () := by
    rw [checkIndex, settles.width]
    exact addressed
  have snaps : Scalar.le (1 - 0) (reg.settleAll.tree.amplitude index).normSq = true ↔
      1 ≤ (reg.represented index).normSq := by
    rw [Scalar.le_iff, sub_zero]
    rfl
  rw [probIndex, runOn_bind, runOn_check, addressed]
  dsimp only
  rw [runOn_bind, runOn_modify]
  dsimp only
  rw [runOn_bind, runOn_get]
  dsimp only
  rw [exact]
  by_cases whole : 1 ≤ (reg.represented index).normSq
  · rw [if_pos whole, if_pos (snaps.mpr whole), runOn_bind, runOn_setBasis, settledAddressed,
      phaseOf_of_one_le whole]
    rfl
  · rw [if_neg whole, if_neg (mt snaps.mp whole)]
    rfl

def Alone (reg : Register ℝ) (index : BasisIndex) : Prop :=
  ∀ other < 2 ^ reg.width, other ≠ index → reg.represented other = 0

/-- A state of norm at most one has nothing besides an amplitude of modulus one. -/
theorem alone_of_totalWeight_le_one (bounded : reg.totalWeight ≤ 1) (below : index < 2 ^ reg.width)
    (whole : 1 ≤ (reg.represented index).normSq) : reg.Alone index := by
  have nonneg (other : BasisIndex) : 0 ≤ (reg.represented other).normSq := Amplitude.normSq_nonneg _
  intro other otherBelow different
  have pair : (reg.represented index).normSq + (reg.represented other).normSq ≤ reg.totalWeight :=
    Finset.add_le_sum (fun i _ => nonneg i) (Finset.mem_range.mpr below)
      (Finset.mem_range.mpr otherBelow) different.symm
  exact (Amplitude.normSq_eq_zero_iff _).mp (le_antisymm (by linarith) (nonneg other))

/-- A reading of the squared modulus of one amplitude keeps the state if it is below one,
and else leaves this basis state alone.  So it keeps all states of norm at most one, but
not every other one. -/
theorem probIndex_keeps_iff (reachable : reg.Reachable) (below : index < 2 ^ reg.width) :
    let weight := (reg.represented index).normSq
    ∃ left, (probIndex index).runOn reg = (.ok (min weight 1), left) ∧ left.width = reg.width ∧
      (weight < 1 → Unchanged reg left) ∧
      (1 ≤ weight → ∀ other < 2 ^ reg.width, left.represented other =
        if other = index then phaseOf (reg.represented index) else 0) ∧
      (Unchanged reg left ∨ reg.Alone index ↔ weight < 1 ∨ reg.Alone index) ∧
      (reg.totalWeight ≤ 1 → Unchanged reg left ∨ reg.Alone index) := by
  have sound := reachable.sound
  have settles := sound.settles_settleAll
  intro weight
  by_cases whole : 1 ≤ weight
  · have represented (other : BasisIndex) (otherBelow : other < 2 ^ reg.width) :
        (reg.settleAll.reset index (phaseOf (reg.represented index))).represented other =
          if other = index then phaseOf (reg.represented index) else 0 :=
      settles.sound.represented_reset (below.trans_eq (by rw [settles.width])) _
        (otherBelow.trans_eq (by rw [settles.width]))
    refine ⟨reg.settleAll.reset index (phaseOf (reg.represented index)), ?_, settles.width,
      fun small => absurd whole (not_le.mpr small), fun _ => represented, ?_, fun bounded =>
        Or.inr (alone_of_totalWeight_le_one bounded below whole)⟩
    · rw [sound.runOn_probIndex below, if_pos whole, min_eq_right whole]
    · refine or_congr_left' fun others => iff_of_false (fun unchanged => others ?_) (not_lt.mpr whole)
      intro other otherBelow different
      rw [← unchanged.2 other, represented other otherBelow, if_neg different]
  · have small := not_le.mp whole
    have unchanged := settles.unchanged sound
    refine ⟨reg.settleAll, ?_, settles.width, fun _ => unchanged, fun large => absurd large whole,
      iff_of_true (Or.inl unchanged) (Or.inl small), fun _ => Or.inl unchanged⟩
    rw [sound.runOn_probIndex below, if_neg whole, min_eq_left small.le]

/-- Two amplitudes of one: a reading of the first one erases the other one. -/
theorem probIndex_erases :
    ∃ fresh reg left : Register ℝ, create 1 0 exactConfig 0 = .ok fresh ∧
      (setAmplitudes #[1, 1]).runOn fresh = (.ok (), reg) ∧
      (probIndex 0).runOn reg = (.ok 1, left) ∧
      reg.represented 1 = 1 ∧ left.represented 1 = 0 := by
  obtain ⟨fresh, reg, made, run, ready, width, -, -, represented⟩ :=
    exists_ready_of_amplitudes 1 (by decide) #[1, 1] rfl
      ⟨1, by simp, fun zero => one_ne_zero (congrArg Amplitude.re zero)⟩
  have below (index : BasisIndex) (small : index < 2) : index < 2 ^ reg.width := by
    rw [width]
    exact small
  have one : (reg.represented 0).normSq = 1 := by
    rw [represented 0 (by decide)]
    exact Amplitude.normSq_one
  obtain ⟨left, read, -, -, snapped, -⟩ := probIndex_keeps_iff ready.reachable (below 0 (by decide))
  rw [one, min_self] at read
  exact ⟨fresh, reg, left, made, run, read, represented 1 (by decide),
    snapped one.ge 1 (below 1 (by decide))⟩

end AmplitudeTree.Register
