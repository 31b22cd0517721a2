import AmplitudeTree.Proofs.Register.Projection

/-!
# Measurements of a range

The qubits of a range are measured one after the other.  A value that is imposed on the range is
refused at the first qubit whose bit has become impossible; by then the qubits before it have
collapsed.
-/

namespace AmplitudeTree.Register

open AmplitudeTree.Action
open AmplitudeTree.Tree (projected)

variable {reg left last : Register ℝ} {qubit place : ℕ} {value : BasisIndex} {outcome : Bool}

/-! ## Parts of parts -/

section Parts

variable {holds holds' : BasisIndex → Bool}

theorem weightWhere_of_scaled {factor : Amplitude ℝ} (width : left.width = reg.width)
    (represented : ∀ index < 2 ^ reg.width,
      left.represented index = if holds index then factor * reg.represented index else 0)
    (holds' : BasisIndex → Bool) :
    left.weightWhere holds' =
      factor.normSq * reg.weightWhere fun index => holds index && holds' index := by
  rw [weightWhere, weightWhere, width, Finset.mul_sum]
  refine Finset.sum_congr rfl fun index member => ?_
  rw [represented index (Finset.mem_range.mp member)]
  cases holds index <;> cases holds' index <;> simp [Amplitude.normSq_eq]

/-- The part that is kept has norm one. -/
theorem PartKept.totalWeight_eq_one (kept : PartKept reg holds left) : left.totalWeight = 1 := by
  obtain ⟨factor, unit, represented⟩ := kept.represented
  rw [← weightWhere_true, weightWhere_of_scaled kept.width represented, ← unit]
  simp only [Bool.and_true]

/-- What is kept has weight under a condition if some of the state meets both conditions. -/
theorem PartKept.weightWhere_eq_zero_iff (kept : PartKept reg holds left) :
    left.weightWhere holds' = 0 ↔
      (reg.weightWhere fun index => holds index && holds' index) = 0 := by
  obtain ⟨factor, unit, represented⟩ := kept.represented
  rw [weightWhere_of_scaled kept.width represented, mul_eq_zero,
    or_iff_right (left_ne_zero_of_mul_eq_one unit)]

theorem PartKept.trans (first : PartKept reg holds left) (second : PartKept left holds' last) :
    PartKept reg (fun index => holds index && holds' index) last where
  width := second.width.trans first.width
  represented := by
    obtain ⟨factor, -, represented⟩ := first.represented
    obtain ⟨factor', unit', represented'⟩ := second.represented
    refine ⟨factor' * factor, ?_, fun index below => ?_⟩
    · rw [weightWhere_of_scaled first.width represented, ← mul_assoc] at unit'
      rw [Amplitude.normSq_eq, Amplitude.toComplex_mul, map_mul, ← Amplitude.normSq_eq,
        ← Amplitude.normSq_eq, unit']
    · rw [represented' index (below.trans_eq (by rw [first.width])), represented index below]
      apply Amplitude.toComplex_injective
      cases holds index <;> cases holds' index <;> simp [mul_assoc]

theorem PartKept.unchanged (kept : PartKept reg holds left) (unchanged : Unchanged left last) :
    PartKept reg holds last where
  width := unchanged.1.trans kept.width
  represented := by
    obtain ⟨factor, unit, represented⟩ := kept.represented
    exact ⟨factor, unit, fun index below => (unchanged.2 index).trans (represented index below)⟩

theorem PartKept.congr (kept : PartKept reg holds left)
    (same : ∀ index < 2 ^ reg.width, holds index = holds' index) : PartKept reg holds' left where
  width := kept.width
  represented := by
    obtain ⟨factor, unit, represented⟩ := kept.represented
    refine ⟨factor, by rwa [← weightWhere_congr same], fun index below => ?_⟩
    rw [← same index below]
    exact represented index below

theorem weightWhere_and_eq_zero (none : reg.weightWhere holds = 0) (holds' : BasisIndex → Bool) :
    (reg.weightWhere fun index => holds index && holds' index) = 0 := by
  have each := (Finset.sum_eq_zero_iff_of_nonneg fun index _ =>
    ite_nonneg (Amplitude.normSq_nonneg (reg.represented index)) le_rfl).mp none
  refine Finset.sum_eq_zero fun index member => ite_eq_right_iff.mpr fun meets => ?_
  have zero := each index member
  rwa [if_pos (Bool.and_eq_true_iff.mp meets).1] at zero

/-- A part that is not the whole differs from the state. -/
theorem PartKept.changed (kept : PartKept reg holds left)
    (proper : reg.weightWhere holds ≠ reg.totalWeight) : ¬ Unchanged reg left := by
  rintro ⟨-, same⟩
  obtain ⟨factor, -, represented⟩ := kept.represented
  refine proper (Finset.sum_congr rfl fun index member => ?_)
  split
  · rfl
  · next outside =>
      have gone := represented index (Finset.mem_range.mp member)
      rw [if_neg outside, same index] at gone
      rw [gone, Amplitude.normSq_zero]

end Parts

/-! ## The lowest bits of a value -/

/-- Whether the `count` qubits from `qubit` on have the values of the bits from `place` on. -/
def agrees (qubit place count : ℕ) (value index : BasisIndex) : Bool :=
  decide (∀ i < count, index.testBit (qubit + i) = value.testBit (place + i))

theorem agrees_zero (qubit place : ℕ) (value index : BasisIndex) :
    agrees qubit place 0 value index = true :=
  decide_eq_true fun _ below => absurd below (Nat.not_lt_zero _)

theorem agrees_succ (qubit place count : ℕ) (value index : BasisIndex) :
    agrees qubit place (count + 1) value index =
      (reads qubit (value.testBit place) index && agrees (qubit + 1) (place + 1) count value index) := by
  rw [Bool.eq_iff_iff, Bool.and_eq_true, agrees, agrees, reads, decide_eq_true_iff,
    decide_eq_true_iff, beq_iff_eq]
  constructor
  · intro same
    refine ⟨same 0 (Nat.succ_pos count), fun i below => ?_⟩
    rw [Nat.add_right_comm qubit, Nat.add_right_comm place]
    exact same (i + 1) (Nat.succ_lt_succ below)
  · rintro ⟨first, rest⟩ i below
    cases i with
    | zero => exact first
    | succ i =>
        have later := rest i (Nat.lt_of_succ_lt_succ below)
        rwa [Nat.add_right_comm qubit, Nat.add_right_comm place] at later

def taken (place length : ℕ) (value : BasisIndex) : BasisIndex :=
  value &&& (QubitRange.mk place length).mask

theorem taken_zero (place : ℕ) (value : BasisIndex) : taken place 0 value = 0 := by
  rw [taken, QubitRange.mask, QubitRange.span, Nat.pow_zero, Nat.sub_self, Nat.zero_shiftLeft,
    Nat.and_zero]

theorem taken_succ (place length : ℕ) (value : BasisIndex) :
    taken place (length + 1) value =
      (if value.testBit place then BasisIndex.power place else 0) ||| taken (place + 1) length value := by
  apply Nat.eq_of_testBit_eq
  intro q
  rw [Nat.testBit_or, taken, taken, Nat.testBit_and, Nat.testBit_and, QubitRange.testBit_mask,
    QubitRange.testBit_mask]
  by_cases here : q = place
  · subst here
    cases value.testBit q <;> simp [QubitRange.contains, QubitRange.stop, BasisIndex.power]
  · have lowest : (if value.testBit place then BasisIndex.power place else 0).testBit q = false := by
      split
      · exact Nat.testBit_two_pow_of_ne (Ne.symm here)
      · exact Nat.zero_testBit q
    have same : (QubitRange.mk place (length + 1)).contains q =
        (QubitRange.mk (place + 1) length).contains q := by
      rw [Bool.eq_iff_iff, QubitRange.contains_iff, QubitRange.contains_iff]
      change place ≤ q ∧ q < place + (length + 1) ↔ place + 1 ≤ q ∧ q < place + 1 + length
      omega
    rw [lowest, Bool.false_or, same]

theorem taken_eq_mod (length : ℕ) (value : BasisIndex) : taken 0 length value = value % 2 ^ length := by
  rw [taken, QubitRange.mask, QubitRange.span, Nat.shiftLeft_zero, Nat.and_two_pow_sub_one_eq_mod]

/-! ## Waiting gates that are unitary -/

/-- What is left once `count` qubits have been measured; without any, nothing changes. -/
def LeftAfter (reg : Register ℝ) (qubit place count : ℕ) (value : BasisIndex) (left : Register ℝ) :
    Prop :=
  (count = 0 → Unchanged reg left) ∧
    (0 < count → PartKept reg (agrees qubit place count value) left)

theorem LeftAfter.succ {count : ℕ} (kept : PartKept reg (reads qubit (value.testBit place)) left)
    (rest : LeftAfter left (qubit + 1) (place + 1) count value last) :
    LeftAfter reg qubit place (count + 1) value last := by
  refine ⟨fun none => absurd none (Nat.succ_ne_zero count), fun _ => ?_⟩
  rcases Nat.eq_zero_or_pos count with rfl | some
  · refine (kept.unchanged (rest.1 rfl)).congr fun index _ => ?_
    rw [agrees_succ, agrees_zero, Bool.and_true]
  · exact (kept.trans (rest.2 some)).congr fun index _ => (agrees_succ ..).symm

/-- A value that is imposed is refused at the first qubit at which no weight is left. -/
theorem Physical.measureFrom_imposed (physical : reg.Physical) {length : ℕ}
    (inside : qubit + length ≤ reg.width) (value : BasisIndex) :
    let weight count := reg.weightWhere (agrees qubit place count value)
    (weight length ≠ 0 → ∃ left, (measureFrom qubit place (some value) length).runOn reg =
      (.ok (taken place length value), left) ∧ LeftAfter reg qubit place length value left ∧
        left.Physical ∧ left.generator = reg.generator) ∧
    ∀ count < length, weight count ≠ 0 → weight (count + 1) = 0 → ∃ left,
      (measureFrom qubit place (some value) length).runOn reg =
        (.error (.impossibleOutcome (qubit + count)), left) ∧
          LeftAfter reg qubit place count value left := by
  induction length generalizing reg qubit place with
  | zero =>
      refine ⟨fun _ => ⟨reg, ?_, ⟨fun _ => ⟨rfl, fun _ => rfl⟩, nofun⟩, physical, rfl⟩, nofun⟩
      rw [taken_zero]
      rfl
  | succ length ih =>
      intro weight
      have here : qubit < reg.width := by omega
      let bit := value.testBit place
      have weight_succ (count : ℕ) : weight (count + 1) = reg.weightWhere fun index =>
          reads qubit bit index && agrees (qubit + 1) (place + 1) count value index :=
        weightWhere_congr fun index _ => agrees_succ qubit place count value index
      by_cases weightless : reg.weightWhere (reads qubit bit) = 0
      · -- the first qubit refuses its bit
        have none (count : ℕ) : weight (count + 1) = 0 :=
          (weight_succ count).trans (weightWhere_and_eq_zero weightless _)
        have impossible : reg.chance qubit bit = 0 := by
          rw [physical.chance_eq, weightless, zero_div]
        refine ⟨fun some => absurd (none length) some, fun count below some _ => ?_⟩
        cases count with
        | succ count => exact absurd (none count) some
        | zero =>
            have unchanged := (physical.toSound.settles_settleUnlessDiagonal qubit).unchanged
              physical.toSound
            exact ⟨_, runOn_bind_of_error (physical.measureQubit_refused here impossible true) _,
              fun _ => unchanged, nofun⟩
      · -- the first qubit collapses to its bit, and the other ones follow
        have positive := physical.chance_pos_iff.mpr weightless
        have chosen : reg.choice (some bit) (reg.chance qubit true) = bit := rfl
        obtain ⟨middle, run, drawn, collapses⟩ := physical.measureQubit_possible here chosen positive
        have kept : PartKept reg (reads qubit bit) middle :=
          (collapses.parityKept physical.toSound).partKept
        have weights (count : ℕ) :
            middle.weightWhere (agrees (qubit + 1) (place + 1) count value) = 0 ↔
              weight (count + 1) = 0 := by
          rw [kept.weightWhere_eq_zero_iff, weight_succ]
        have rest : qubit + 1 + length ≤ middle.width := by rw [collapses.width]; omega
        obtain ⟨returns, fails⟩ := @ih _ _ (place + 1) collapses.physical rest
        refine ⟨fun some => ?_, fun count below some zero => ?_⟩
        · obtain ⟨left, rest, after, leftPhysical, generator⟩ := returns (mt (weights length).mp some)
          refine ⟨left, ?_, .succ kept after, leftPhysical, generator.trans drawn⟩
          rw [measureFrom, taken_succ]
          refine (runOn_bind_of_ok run _).trans ((runOn_bind_of_ok rest _).trans ?_)
          rfl
        · cases count with
          | zero =>
              refine absurd ?_ weightless
              rw [← zero]
              refine weightWhere_congr fun index _ => ?_
              rw [agrees_succ, agrees_zero, Bool.and_true]
          | succ count =>
              obtain ⟨left, rest, after⟩ :=
                fails count (Nat.lt_of_succ_lt_succ below) (mt (weights count).mp some)
                  ((weights (count + 1)).mpr zero)
              rw [Nat.add_right_comm] at rest
              exact ⟨left, (runOn_bind_of_ok run _).trans (runOn_bind_of_error rest _),
                .succ kept after⟩

/-! ## Any waiting gates -/

/-- The tree has a qubit at one value, and at most a diagonal gate waits on it. -/
structure Holds (reg : Register ℝ) (qubit : ℕ) (outcome : Bool) : Prop where
  settled : reg.SettledOn qubit
  projected : projected qubit outcome reg.tree.state = reg.tree.state

theorem Holds.represented (holds : reg.Holds qubit outcome) (sound : reg.Sound) {index : BasisIndex}
    (differs : index.testBit qubit ≠ outcome) : reg.represented index = 0 := by
  apply Amplitude.toComplex_injective
  rw [sound.toComplex_represented, state, ← holds.projected,
    PendingGates.act_projected holds.settled, Tree.projected, if_neg differs, Amplitude.toComplex_zero]

/-- Measurements of qubits from `qubit` on leave the qubits before them at the
values that they have. -/
structure PassedOn (reg : Register ℝ) (qubit : ℕ) (left : Register ℝ) : Prop where
  sound : left.Sound
  width : left.width = reg.width
  holds : ∀ q < qubit, ∀ outcome, reg.Holds q outcome → left.Holds q outcome

theorem PassedOn.trans {later : ℕ} (first : PassedOn reg qubit left) (order : qubit ≤ later)
    (second : PassedOn left later last) : PassedOn reg qubit last where
  sound := second.sound
  width := second.width.trans first.width
  holds q before outcome here :=
    second.holds q (before.trans_le order) outcome (first.holds q before outcome here)

/-- Gates that are settled on a qubit leave the values of other qubits alone. -/
theorem Sound.passedOn_settleUnlessDiagonal (sound : reg.Sound) (qubit : ℕ) :
    PassedOn reg qubit (reg.settleUnlessDiagonal qubit) where
  sound := (sound.settles_settleUnlessDiagonal qubit).sound
  width := (sound.settles_settleUnlessDiagonal qubit).width
  holds q before outcome here := by
    refine ⟨fun gate waits => here.settled gate ?_, ?_⟩
    · rwa [reg.waiting_settleUnlessDiagonal (Or.inl before.ne)] at waits
    · unfold settleUnlessDiagonal
      split
      · exact here.projected
      · next gate waits =>
          split
          · exact here.projected
          · rw [(sound.tree_settle qubit).2, PendingGates.actAt_of_some waits,
              ← gate.act_projected_of_ne before.ne, here.projected]

noncomputable def bare (reg : Register ℝ) : Register ℝ := { reg with pending := reg.pending.clear }

theorem bare_state (reg : Register ℝ) : reg.bare.state = reg.tree.state :=
  PendingGates.act_clear _ _

theorem Sound.bare (sound : reg.Sound) : reg.bare.Sound where
  tree := sound.tree
  slots := (List.length_map _).trans sound.slots
  exact := sound.exact
  admitted := sound.admitted

theorem bare_settledOn (reg : Register ℝ) (qubit : ℕ) : reg.bare.SettledOn qubit := by
  intro gate waits
  rw [show reg.bare.pending.get? qubit = none from PendingGates.get?_clear _ _] at waits
  cases waits

theorem Sound.state_afterChange (sound : reg.Sound) : reg.afterChange.tree.state = reg.tree.state := by
  have settles := sound.bare.settles_afterChange.state
  rw [bare_state] at settles
  rw [← settles]
  exact (bare_state reg.afterChange).symm

/-- What a collapse of a qubit leaves has the qubit at its value, and other qubits at theirs. -/
theorem Sound.passedOn_collapsed (sound : reg.Sound) (inside : qubit < reg.width)
    (kept : (reg.tree.collapse qubit outcome).1 = true) :
    PassedOn reg qubit (reg.collapsed qubit outcome).afterChange ∧
      (reg.collapsed qubit outcome).afterChange.Holds qubit outcome := by
  have retained := sound.collapsed qubit outcome
  have reduced := retained.sound.settles_afterChange
  obtain ⟨-, collapses⟩ := sound.tree.collapse inside outcome
  rw [if_pos kept] at collapses
  obtain ⟨factor, -, divided⟩ := collapses
  have tree : (reg.collapsed qubit outcome).afterChange.tree.state =
      fun bits => projected qubit outcome reg.tree.state bits / (factor : ℂ) :=
    retained.sound.state_afterChange.trans divided
  have pending : (reg.collapsed qubit outcome).afterChange.pending = reg.pending.erase qubit := rfl
  refine ⟨⟨reduced.sound, reduced.width.trans retained.width, fun q before value here => ?_⟩, ?_⟩
  · refine ⟨fun gate waits => here.settled gate ?_, ?_⟩
    · rwa [pending, PendingGates.get?_erase_of_ne before.ne] at waits
    · funext bits
      have fixed := congrFun here.projected bits
      unfold projected at fixed
      rw [tree]
      unfold projected
      dsimp only
      by_cases same : bits q = value
      · rw [if_pos same]
      · rw [if_neg same] at fixed
        rw [if_neg same, ← fixed, ite_self, zero_div]
  · refine ⟨fun gate waits => ?_, ?_⟩
    · rw [pending, PendingGates.get?_erase_self] at waits
      cases waits
    · funext bits
      rw [tree]
      unfold projected
      dsimp only
      split
      · rfl
      · exact (zero_div _).symm

/-- A collapse that leaves nothing although the value is likely has found a state without amplitudes. -/
theorem Sound.tree_state_eq_zero (sound : reg.Sound) (inside : qubit < reg.width)
    (likely : 0 < reg.likelihood qubit outcome) (lost : (reg.tree.collapse qubit outcome).1 = false) :
    reg.tree.state = 0 := by
  by_contra some
  have physical : reg.bare.Physical :=
    ⟨sound.bare, PendingGates.unitary_clear _, (bare_state reg).symm ▸ some⟩
  have possible := physical.projected_ne_zero (reg.bare_settledOn qubit) inside likely
  have kept : (reg.tree.collapse qubit outcome).1 = true :=
    physical.collapse_kept (reg.bare_settledOn qubit) inside possible
  rw [lost] at kept
  cases kept

theorem Sound.passedOn_lost (sound : reg.Sound) (inside : qubit < reg.width)
    (none : reg.tree.state = 0) (lost : (reg.tree.collapse qubit outcome).1 = false) :
    PassedOn reg qubit (reg.collapsed qubit outcome) ∧ Unchanged reg (reg.collapsed qubit outcome) := by
  have retained := sound.collapsed qubit outcome
  obtain ⟨-, same⟩ := sound.tree.collapse inside outcome
  rw [lost, if_neg Bool.false_ne_true] at same
  have tree : (reg.collapsed qubit outcome).tree.state = reg.tree.state := same.1
  refine ⟨⟨retained.sound, retained.width, fun q before value here => ⟨fun gate waits => ?_, ?_⟩⟩,
    retained.width, fun index => ?_⟩
  · have pending : (reg.collapsed qubit outcome).pending = reg.pending.erase qubit := rfl
    rw [pending, PendingGates.get?_erase_of_ne before.ne] at waits
    exact here.settled gate waits
  · rw [tree]
    exact here.projected
  · apply Amplitude.toComplex_injective
    rw [retained.sound.toComplex_represented, sound.toComplex_represented, state, state, tree, none,
      PendingGates.act, PendingGates.act, PendingGates.actOn_zero, PendingGates.actOn_zero]

/-- Imposing a value either fails and keeps the state, or leaves the qubit at the value. -/
theorem Sound.measureQubit_cases (sound : reg.Sound) (inside : qubit < reg.width) (outcome : Bool) :
    ∃ left, PassedOn reg qubit left ∧
      ((measureQubit qubit (some outcome) true).runOn reg = (.error (.impossibleOutcome qubit), left) ∧
          Unchanged reg left ∨
        (measureQubit qubit (some outcome) true).runOn reg = (.ok outcome, left) ∧
          left.Holds qubit outcome) := by
  have settles := sound.settles_settleUnlessDiagonal qubit
  have passed := sound.passedOn_settleUnlessDiagonal qubit
  have unchanged := settles.unchanged sound
  have run := runOn_measureQubit sound inside (some outcome) true
  generalize reg.settleUnlessDiagonal qubit = settled at settles passed unchanged run
  have within : qubit < settled.width := inside.trans_eq settles.width.symm
  have chosen : settled.choice (some outcome) (settled.tree.prob qubit) = outcome := rfl
  simp only [chosen, Option.isSome_some, Bool.and_true, Bool.not_true] at run
  cases impossible : Scalar.le (settled.likelihood qubit outcome) 0 with
  | true =>
      rw [impossible, if_pos rfl] at run
      exact ⟨settled, passed, Or.inl ⟨run, unchanged⟩⟩
  | false =>
      have likely : 0 < settled.likelihood qubit outcome := by
        rwa [← Bool.not_eq_true, Scalar.le_iff, not_le] at impossible
      rw [impossible, if_neg Bool.false_ne_true, if_neg Bool.false_ne_true,
        if_neg Bool.false_ne_true, runOn_collapseTo] at run
      cases kept : (settled.tree.collapse qubit outcome).1 with
      | true =>
          obtain ⟨collapsed, holds⟩ := settles.sound.passedOn_collapsed within kept
          refine ⟨_, passed.trans le_rfl collapsed, Or.inr ⟨run.trans ?_, holds⟩⟩
          exact if_pos kept
      | false =>
          have none := settles.sound.tree_state_eq_zero within likely kept
          obtain ⟨lost, same⟩ := settles.sound.passedOn_lost within none kept
          refine ⟨_, passed.trans le_rfl lost, Or.inl ⟨run.trans ?_, same.1.trans unchanged.1,
            fun index => (same.2 index).trans (unchanged.2 index)⟩⟩
          exact if_neg (kept ▸ Bool.false_ne_true)

/-- If the measurement of a range fails, the qubits before the one that refuses its
bit have collapsed. -/
theorem Sound.measureFrom_error (sound : reg.Sound) {length : ℕ}
    (inside : qubit + length ≤ reg.width) {e : RegisterError ℝ}
    (run : (measureFrom qubit place (some value) length).runOn reg = (.error e, left)) :
    ∃ count < length, e = .impossibleOutcome (qubit + count) ∧ PassedOn reg qubit left ∧
      (count = 0 → Unchanged reg left) ∧
        ∀ i < count, left.Holds (qubit + i) (value.testBit (place + i)) := by
  induction length generalizing reg qubit place with
  | zero => cases run
  | succ length ih =>
      have here : qubit < reg.width := by omega
      obtain ⟨middle, passed, ⟨failed, unchanged⟩ | ⟨returned, holds⟩⟩ :=
        sound.measureQubit_cases here (value.testBit place)
      · have stopped := (runOn_bind_of_error failed _).symm.trans run
        cases stopped
        exact ⟨0, Nat.succ_pos length, rfl, passed, fun _ => unchanged, nofun⟩
      · have rest := (runOn_bind_of_ok returned _).symm.trans run
        rw [runOn_bind] at rest
        split at rest
        · cases rest
        · next e' left' failed =>
            cases rest
            obtain ⟨count, below, rfl, later, -, fixed⟩ :=
              ih passed.sound (by rw [passed.width]; omega) failed
            refine ⟨count + 1, Nat.succ_lt_succ below, by rw [Nat.add_right_comm]; rfl,
              passed.trans (Nat.le_succ qubit) later, fun none => absurd none (Nat.succ_ne_zero count),
              fun i before => ?_⟩
            cases i with
            | zero => exact later.holds qubit (Nat.lt_succ_self qubit) _ holds
            | succ i =>
                have fixed := fixed i (Nat.lt_of_succ_lt_succ before)
                rwa [Nat.add_right_comm qubit, Nat.add_right_comm place] at fixed

/-! ## Every register -/

/-- Drawn values are never refused. -/
theorem Physical.measureFrom_drawn (physical : reg.Physical) (place : ℕ) {length : ℕ}
    (inside : qubit + length ≤ reg.width) :
    ∃ outcome left, (measureFrom qubit place none length).runOn reg = (.ok outcome, left) := by
  induction length generalizing reg qubit place with
  | zero => exact ⟨_, _, rfl⟩
  | succ length ih =>
      have here : qubit < reg.width := by omega
      obtain ⟨middle, drawn, -, collapses⟩ := physical.measureQubit_drawn here
      have inside : qubit + 1 + length ≤ middle.width := by rw [collapses.width]; omega
      obtain ⟨outcome, left, rest⟩ := ih collapses.physical (place + 1) inside
      exact ⟨_, left, (runOn_bind_of_ok drawn _).trans ((runOn_bind_of_ok rest _).trans rfl)⟩

theorem runOn_measureRange {range : QubitRange} (inside : range.stop ≤ reg.width)
    (forced : Option BasisIndex) :
    (measureRange range forced).runOn reg =
      (measureFrom range.start 0 forced range.length).runOn reg := by
  rw [measureRange, runOn_bind, runOn_check, checkRange_eq_ok.mpr inside]

/-- A range that exceeds the register is refused and nothing changes.  A value is refused at the
first qubit at which no weight is left, after the qubits before it have collapsed; a drawn value is
never refused.  What is left is the part of the state that agrees with the value on these qubits,
brought to norm one. -/
theorem measureRange_refused (reachable : reg.Reachable) (range : QubitRange) :
    (reg.width < range.stop → ∀ forced, (measureRange range forced).runOn reg =
      (.error (.rangeOutOfBounds range reg.width), reg)) ∧
    (range.stop ≤ reg.width → ∀ value e left,
      (measureRange range (some value)).runOn reg = (.error e, left) →
        ∃ count < range.length, e = .impossibleOutcome (range.start + count) ∧
          (count = 0 → Unchanged reg left) ∧
            ∀ index, agrees range.start 0 count value index = false → left.represented index = 0) ∧
    (range.stop ≤ reg.width → reg.pending.Unitary → 0 < reg.normSq →
      (∃ outcome left, (measureRange range none).runOn reg = (.ok outcome, left)) ∧
      ∀ value,
        let weight count := reg.weightWhere (agrees range.start 0 count value)
        (weight range.length ≠ 0 → ∃ left,
          (measureRange range (some value)).runOn reg = (.ok (value % 2 ^ range.length), left) ∧
            LeftAfter reg range.start 0 range.length value left) ∧
        ∀ count < range.length, weight count ≠ 0 → weight (count + 1) = 0 → ∃ left,
          (measureRange range (some value)).runOn reg =
              (.error (.impossibleOutcome (range.start + count)), left) ∧
            LeftAfter reg range.start 0 count value left ∧
              (Unchanged reg left → weight count = reg.totalWeight)) := by
  have sound := reachable.sound
  refine ⟨fun beyond forced => ?_, fun inside value e left run => ?_, fun inside unitary positive => ?_⟩
  · rw [measureRange, runOn_bind, runOn_check, checkRange, if_neg (not_le.mpr beyond)]
  · rw [runOn_measureRange inside] at run
    obtain ⟨count, below, rfl, passed, unchanged, fixed⟩ := sound.measureFrom_error inside run
    refine ⟨count, below, rfl, unchanged, fun index differs => ?_⟩
    obtain ⟨i, before, different⟩ : ∃ i < count,
        index.testBit (range.start + i) ≠ value.testBit (0 + i) := by
      simpa [agrees] using differs
    exact (fixed i before).represented passed.sound different
  · have physical := (Ready.mk reachable unitary positive).physical
    simp only [runOn_measureRange inside]
    refine ⟨physical.measureFrom_drawn 0 inside, fun value => ?_⟩
    obtain ⟨returns, fails⟩ := @Physical.measureFrom_imposed _ _ 0 physical _ inside value
    refine ⟨fun some => ?_, fun count below some none => ?_⟩
    · obtain ⟨left, run, after, -⟩ := returns some
      exact ⟨left, run.trans (by rw [taken_eq_mod]), after⟩
    · obtain ⟨left, run, after⟩ := fails count below some none
      refine ⟨left, run, after, fun same => ?_⟩
      rcases Nat.eq_zero_or_pos count with rfl | before
      · exact (weightWhere_congr fun index _ => agrees_zero range.start 0 value index).trans
          reg.weightWhere_true
      · by_contra proper
        exact (after.2 before).changed proper same

/-- Two equal qubits: 1 is refused at the second one, after the first one has collapsed to 1. -/
theorem measureRange_refused_pair :
    ∃ fresh reg left : Register ℝ, create 2 0 exactConfig 0 = .ok fresh ∧
      (setAmplitudes #[1, 0, 0, 1]).runOn fresh = (.ok (), reg) ∧
      (measureRange ⟨0, 2⟩ (some 1)).runOn reg = (.error (.impossibleOutcome 1), left) ∧
      reg.represented 0 = 1 ∧ left.represented 0 = 0 := by
  obtain ⟨fresh, reg, made, run, ready, width, -, -, represented⟩ :=
    exists_ready_of_amplitudes 2 (by decide) #[1, 0, 0, 1] rfl
      ⟨1, by simp, fun zero => one_ne_zero (congrArg Amplitude.re zero)⟩
  have squares (index : BasisIndex) (below : index < 4) :
      (reg.represented index).normSq = if index = 0 ∨ index = 3 then 1 else 0 := by
    rw [represented index below]
    interval_cases index <;> simp [Amplitude.normSq_zero, Amplitude.normSq_one]
  have first : reg.weightWhere (agrees 0 0 1 1) = 1 := by
    rw [weightWhere, width]
    norm_num [Finset.sum_range_succ, squares, agrees]
  have differ : agrees 0 0 2 1 0 = false ∧ agrees 0 0 2 1 3 = false := by decide
  have second : reg.weightWhere (agrees 0 0 2 1) = 0 := by
    rw [weightWhere, width]
    norm_num [Finset.sum_range_succ, squares, differ]
  obtain ⟨-, refused, exact⟩ := measureRange_refused ready.reachable ⟨0, 2⟩
  have inside : (QubitRange.mk 0 2).stop ≤ reg.width := width.ge
  obtain ⟨-, imposed⟩ := exact inside ready.unitary ready.normSq_pos
  obtain ⟨left, failed, -, -⟩ :=
    (imposed 1).2 1 (by decide) (first.trans_ne one_ne_zero) second
  obtain ⟨count, -, same, -, gone⟩ := refused inside 1 _ left failed
  have refuser : 0 + 1 = 0 + count := RegisterError.impossibleOutcome.inj same
  obtain rfl : 1 = count := by omega
  exact ⟨fresh, reg, left, made, run, failed, represented 0 (by decide), gone 0 (by decide)⟩

end AmplitudeTree.Register
