import AmplitudeTree.Proofs.Register.Arithmetic
import AmplitudeTree.Proofs.Register.Session
import AmplitudeTree.Proofs.Tree.StagedAmplitudes

/-!
# Writing a state vector back

An operation on the state vector of a register either returns, and the register then stands for the
amplitudes that the operation has left in the vector, or it fails, and the register stands for what
it stood for before.
-/

namespace AmplitudeTree.Register

open AmplitudeTree.Action

variable {α : Type} {reg left : Register ℝ} {index : BasisIndex}

/-! ## Trees of given amplitudes -/

theorem Sound.represented_of_idle (sound : reg.Sound) (idle : ∀ q, reg.pending.get? q = none)
    (index : BasisIndex) : reg.represented index = reg.tree.amplitude index := by
  apply Amplitude.toComplex_injective
  rw [sound.toComplex_represented, sound.tree.toComplex_amplitude, state, PendingGates.act,
    PendingGates.actOn_of_free fun q _ => idle q]

theorem Sound.amplitude_treeOf (sound : reg.Sound) (amplitudes : Array (Amplitude ℝ))
    (below : index < 2 ^ reg.width) :
    (reg.treeOf amplitudes).amplitude index = amplitudes[index]?.getD 0 := by
  rw [treeOf, sound.threshold_eq]
  exact Tree.amplitude_ofAmplitudes _ below

/-! ## State vectors -/

noncomputable def replaced (reg : Register ℝ) (amplitudes : Array (Amplitude ℝ)) : Register ℝ :=
  { reg.listed with tree := reg.listed.treeOf amplitudes }.afterChange

theorem Sound.replaced (sound : reg.Sound) (amplitudes : Array (Amplitude ℝ)) :
    (reg.replaced amplitudes).width = reg.width ∧ ∀ index < 2 ^ reg.width,
      (reg.replaced amplitudes).represented index = amplitudes[index]?.getD 0 := by
  have listed := sound.settles_listed
  have built := listed.sound.withAmplitudes amplitudes
  have settles : Settles _ (reg.replaced amplitudes) := built.sound.settles_afterChange
  refine ⟨settles.width.trans (built.width.trans listed.width), fun index below => ?_⟩
  rw [settles.represented built.sound,
    built.sound.represented_of_idle fun q => sound.get?_settleAll q]
  exact listed.sound.amplitude_treeOf amplitudes (listed.width.symm ▸ below)

/-- The state vector of the register can be made, and offers the operators that are asked for. -/
structure Expands (reg : Register ℝ) (required : List OperatorSet) : Prop where
  offered : reg.checkOperators required = .ok ()
  dense : reg.checkDense = .ok ()
  accepted : ¬ reg.Refuses

theorem Sound.fails_of_not_expands (sound : reg.Sound) {required : List OperatorSet}
    (unexpanded : ¬ Expands reg required)
    (op : StateVector ℝ → Except VectorError (α × StateVector ℝ)) :
    Fails (withVector required op) reg := by
  rw [Fails, withVector, runOn_bind]
  cases offered : reg.checkOperators required with
  | error e =>
      rw [toVector, runOn_bind, runOn_check, offered]
      exact ⟨e, rfl⟩
  | ok _ =>
      cases dense : reg.checkDense with
      | error e =>
          rw [toVector, runOn_bind, runOn_check, offered]
          dsimp only
          rw [runOn_bind, runOn_check, dense]
          exact ⟨e, rfl⟩
      | ok _ =>
          have refuses : reg.Refuses := by
            by_contra accepted
            exact unexpanded ⟨offered, dense, accepted⟩
          rw [sound.runOn_toVector offered dense, if_pos refuses]
          exact ⟨_, rfl⟩

/-- An operation that leaves an amplitude which is not zero returns, and the register stands for
what it has left. -/
theorem Sound.runOn_withVector_eq_ok (sound : reg.Sound) {required : List OperatorSet}
    {op : StateVector ℝ → Except VectorError (α × StateVector ℝ)} {a : α} :
    (withVector required op).runOn reg = (.ok a, left) ↔
      Expands reg required ∧ ∃ v, op reg.vector = .ok (a, v) ∧ ¬ v.Vanishes ∧
        left = reg.replaced v.amplitudes := by
  by_cases expands : Expands reg required
  · rw [sound.runOn_withVector expands.offered expands.dense expands.accepted,
      and_iff_right expands, sound.threshold_eq]
    cases ran : op reg.vector with
    | error e =>
        refine iff_of_false nofun ?_
        rintro ⟨v, found, _⟩
        cases found
    | ok result =>
        obtain ⟨b, v⟩ := result
        dsimp only
        by_cases vanishes : v.Vanishes
        · rw [if_pos (StateVector.vanishes_iff_all.mp vanishes)]
          refine iff_of_false nofun ?_
          rintro ⟨v', found, some, _⟩
          cases found
          exact some vanishes
        · rw [if_neg (mt StateVector.vanishes_iff_all.mpr vanishes)]
          constructor
          · intro run
            cases run
            exact ⟨v, rfl, vanishes, rfl⟩
          · rintro ⟨v', found, _, rfl⟩
            cases found
            rfl
  · obtain ⟨e, failed⟩ := sound.fails_of_not_expands expands op
    refine iff_of_false (fun run => ?_) fun found => expands found.1
    rw [run] at failed
    cases failed

/-! ## Lists of amplitudes -/

/-- A register that is narrow enough lists the amplitudes that it stands for. -/
theorem Sound.runOn_amplitudes (sound : reg.Sound) (dense : reg.checkDense = .ok ()) :
    amplitudes.runOn reg = (.ok reg.vector.amplitudes, reg.settleAll) := by
  have width : reg.settleAll.tree.width = reg.width := sound.settles_settleAll.width
  have listed : reg.settleAll.tree.amplitudes = reg.vector.amplitudes := by
    rw [Tree.amplitudes, width]
    rfl
  simp only [amplitudes, runOn_bind, runOn_check, dense, runOn_modify, runOn_get, runOn_pure, listed]

/-- A register that stands for a list of amplitudes, and on which no gate waits. -/
structure Written (reg : Register ℝ) (list : Array (Amplitude ℝ)) (left : Register ℝ) : Prop
    extends Retains reg left where
  pending : left.pending = reg.pending.clear
  represented : ∀ index < 2 ^ reg.width, left.represented index = list[index]?.getD 0

theorem Sound.setAmplitudes_written (sound : reg.Sound) (dense : reg.checkDense = .ok ())
    {list : Array (Amplitude ℝ)} (size : list.size = 2 ^ reg.width) (nonzero : ∃ a ∈ list, a ≠ 0) :
    ∃ left, (setAmplitudes list).runOn reg = (.ok (), left) ∧ Written reg list left := by
  let left : Register ℝ := { reg with pending := reg.pending.clear, tree := reg.treeOf list }
  have run : (setAmplitudes list).runOn reg = (.ok (), left) := by
    have sizes : ¬ (list.size != 2 ^ reg.width) = true := by simp [size]
    have kept : ¬ list.all (Amplitude.negligible reg.threshold) = true := by
      obtain ⟨a, listed, nonzero⟩ := nonzero
      rw [Array.all_eq_true', sound.threshold_eq]
      intro negligible
      have zero := (Amplitude.negligible_zero_iff a).mp (negligible a listed)
      exact nonzero (Amplitude.toComplex_injective (zero.trans Amplitude.toComplex_zero.symm))
    simp only [setAmplitudes, runOn_bind, runOn_check, dense, runOn_get]
    rw [if_neg sizes, if_neg kept]
    rfl
  have retains : Retains reg left := by
    have kept := keeps_setAmplitudes list reg sound
    rwa [run] at kept
  refine ⟨left, run, retains, rfl, fun index below => ?_⟩
  rw [retains.sound.represented_of_idle (PendingGates.get?_clear reg.pending)]
  exact sound.amplitude_treeOf list below

/-- A list that replaces the state is read back as it was written. -/
theorem Sound.runOn_setAmplitudes (sound : reg.Sound) (dense : reg.checkDense = .ok ())
    {list : Array (Amplitude ℝ)} (size : list.size = 2 ^ reg.width) (nonzero : ∃ a ∈ list, a ≠ 0) :
    ∃ left read, (setAmplitudes list).runOn reg = (.ok (), left) ∧
      amplitudes.runOn left = (.ok list, read) := by
  obtain ⟨left, run, written⟩ := sound.setAmplitudes_written dense size nonzero
  have width := written.width
  have listed : left.vector.amplitudes = list := by
    apply Array.ext
    · rw [size_vector, width_vector, width, size]
    · intro index below below'
      have inside : index < 2 ^ reg.width := below'.trans_eq size
      have read := written.represented index inside
      rw [Array.getElem?_eq_getElem below', Option.getD_some] at read
      exact (Array.getElem_ofFn ..).trans read
  have denseLeft : left.checkDense = .ok () := by
    rw [checkDense_eq_ok, width, written.config]
    exact checkDense_eq_ok.mp dense
  refine ⟨left, left.settleAll, run, ?_⟩
  rw [written.sound.runOn_amplitudes denseLeft, listed]

theorem accepts_of_narrow (factory : reg.factory = .ofLimit exactConfig.denseLimit)
    (narrow : reg.width ≤ exactConfig.denseLimit) : ¬ reg.Refuses := by
  have admitted := denseLimit_lt validate_exactConfig
  rw [Refuses, factory]
  rintro (beyond | wide)
  · exact absurd narrow (not_le.mpr beyond)
  · exact absurd (narrow.trans_lt admitted) (not_lt.mpr wide)

theorem expands_of_narrow (config : reg.config = exactConfig)
    (factory : reg.factory = .ofLimit exactConfig.denseLimit)
    (narrow : reg.width ≤ exactConfig.denseLimit) (required : List OperatorSet) :
    Expands reg required where
  offered := by
    have every : required.find? (fun set => !reg.factory.capabilities.supports set) = none := by
      rw [factory]
      exact List.find?_eq_none.mpr fun set _ => by cases set <;> decide
    rw [checkOperators, every]
  dense := checkDense_eq_ok.mpr (narrow.trans_eq (by rw [config]))
  accepted := accepts_of_narrow factory narrow

/-- Narrow registers can be made with the exact settings. -/
theorem exists_create_of_narrow {width : ℕ} (narrow : width ≤ exactConfig.denseLimit)
    (below : index < 2 ^ width) : ∃ reg : Register ℝ, create width index exactConfig 0 = .ok reg := by
  have admitted := (denseLimit_lt validate_exactConfig).le
  have widest : BasisIndex.wordBits ≤ BasisIndex.maxWidth := by decide
  exact exists_create validate_exactConfig (narrow.trans (admitted.trans widest))
    (BasisIndex.check_eq_ok.mpr fun _ => below) 0

/-- A basis state makes a register that calls may start from. -/
theorem exists_ready_of_basis (width : ℕ) (narrow : width ≤ exactConfig.denseLimit)
    (below : index < 2 ^ width) :
    ∃ reg : Register ℝ, create width index exactConfig 0 = .ok reg ∧ reg.Ready ∧ reg.width = width ∧
      reg.config = exactConfig ∧ reg.factory = .ofLimit exactConfig.denseLimit ∧
        ∀ other < 2 ^ width, reg.represented other = if other = index then 1 else 0 := by
  obtain ⟨reg, made⟩ := exists_create_of_narrow narrow below
  have ready : reg.Ready := .of_create rfl made
  have represented : ∀ other < 2 ^ width, reg.represented other = if other = index then 1 else 0 :=
    fun other inside => represented_of_create made rfl below inside
  obtain ⟨-, -, generator, rfl⟩ := eq_of_create made
  exact ⟨_, made, ready, rfl, rfl, rfl, represented⟩

/-- Any amplitudes that are not all zero, normalized or not, make a register that
calls may start from. -/
theorem exists_ready_of_amplitudes (width : ℕ) (narrow : width ≤ exactConfig.denseLimit)
    (list : Array (Amplitude ℝ)) (size : list.size = 2 ^ width) (nonzero : ∃ a ∈ list, a ≠ 0) :
    ∃ fresh reg : Register ℝ, create width 0 exactConfig 0 = .ok fresh ∧
      (setAmplitudes list).runOn fresh = (.ok (), reg) ∧ reg.Ready ∧ reg.width = width ∧
        reg.config = exactConfig ∧ reg.factory = .ofLimit exactConfig.denseLimit ∧
          ∀ index < 2 ^ width, reg.represented index = list[index]?.getD 0 := by
  obtain ⟨fresh, made⟩ := exists_create_of_narrow narrow (Nat.two_pow_pos width)
  have reachable : Reachable fresh := .create rfl made
  obtain ⟨-, -, generator, rfl⟩ := eq_of_create made
  obtain ⟨reg, run, written⟩ :=
    reachable.sound.setAmplitudes_written (checkDense_eq_ok.mpr narrow) size nonzero
  have ready : reg.Ready := by
    refine ⟨?_, ?_, ?_⟩
    · have reached := reachable.setAmplitudes list
      rwa [run] at reached
    · rw [written.pending]
      exact PendingGates.unitary_clear _
    · obtain ⟨a, listed, nonzero⟩ := nonzero
      obtain ⟨index, below, rfl⟩ := Array.mem_iff_getElem.mp listed
      refine written.sound.normSq_pos (show reg.state index.testBit ≠ 0 from fun zero => nonzero ?_)
      have read := written.represented index (below.trans_eq size)
      rw [Array.getElem?_eq_getElem below, Option.getD_some] at read
      rw [← read, ← Amplitude.toComplex_inj, written.sound.toComplex_represented, zero]
      rfl
  exact ⟨_, reg, made, run, ready, written.width, written.config, written.factory,
    written.represented⟩

/-! ## Every register -/

/-- An operation on the state vector returns if the vector can be made and some amplitude is
left.  The register then stands for these amplitudes, and after an error for what it stood for
before; what is written is read back. -/
theorem withVector_represented (reachable : Reachable reg)
    (dense : reg.width ≤ reg.config.denseLimit) :
    (∀ (required : List OperatorSet)
        (op : StateVector ℝ → Except VectorError (α × StateVector ℝ)),
      ((∃ a left, (withVector required op).runOn reg = (.ok a, left)) ↔
        reg.checkOperators required = .ok () ∧ ¬ reg.Refuses ∧
          ∃ a v, op reg.vector = .ok (a, v) ∧ ¬ v.Vanishes) ∧
      (∀ a left, (withVector required op).runOn reg = (.ok a, left) →
        left.width = reg.width ∧ ∃ v, op reg.vector = .ok (a, v) ∧
          ∀ index < 2 ^ reg.width, left.represented index = v.amplitudeD index) ∧
      ∀ e left, (withVector required op).runOn reg = (.error e, left) →
        left.width = reg.width ∧ ∀ index, left.represented index = reg.represented index) ∧
    ∀ list : Array (Amplitude ℝ), list.size = 2 ^ reg.width → (∃ a ∈ list, a ≠ 0) →
      ∃ left read, (setAmplitudes list).runOn reg = (.ok (), left) ∧
        amplitudes.runOn left = (.ok list, read) := by
  have sound := reachable.sound
  have narrow := checkDense_eq_ok.mpr dense
  refine ⟨fun required op => ⟨⟨?_, ?_⟩, ?_, ?_⟩, ?_⟩
  · rintro ⟨a, left, run⟩
    obtain ⟨expands, v, ran, some, -⟩ := sound.runOn_withVector_eq_ok.mp run
    exact ⟨expands.offered, expands.accepted, a, v, ran, some⟩
  · rintro ⟨offered, accepted, a, v, ran, some⟩
    exact ⟨a, _, sound.runOn_withVector_eq_ok.mpr
      ⟨⟨offered, narrow, accepted⟩, v, ran, some, rfl⟩⟩
  · intro a left run
    obtain ⟨-, v, ran, -, rfl⟩ := sound.runOn_withVector_eq_ok.mp run
    obtain ⟨width, represented⟩ := sound.replaced v.amplitudes
    exact ⟨width, v, ran, represented⟩
  · intro e left run
    have settles := traceless_withVector required op sound run
    exact ⟨settles.width, settles.represented sound⟩
  · intro list size nonzero
    exact sound.runOn_setAmplitudes narrow size nonzero

/-- Writing one amplitude beside a waiting Hadamard gate, writing outside the register, and writing
a list of another norm. -/
theorem withVector_waiting_hadamard :
    ∃ fresh : Register ℝ, create 2 0 exactConfig 0 = .ok fresh ∧
      let reg := ((applyWhere [] true .hadamard 0).runOn fresh).2
      let replace (index : BasisIndex) (v : StateVector ℝ) :=
        (v.setAmplitude index ⟨2, 0⟩).map fun v => ((), v)
      (∃ left, (withVector [] (replace 3)).runOn reg = (.ok (), left) ∧
        left.represented 3 = ⟨2, 0⟩ ∧ left.represented 0 = reg.represented 0) ∧
      (∃ e left, (withVector [] (replace 4)).runOn reg = (.error e, left) ∧
        left.represented 0 = reg.represented 0) ∧
      ∃ left read, (setAmplitudes #[0, ⟨2, 0⟩, 0, -1]).runOn reg = (.ok (), left) ∧
        amplitudes.runOn left = (.ok #[0, ⟨2, 0⟩, 0, -1], read) := by
  obtain ⟨fresh, made⟩ : ∃ fresh, create 2 0 exactConfig 0 = .ok fresh :=
    exists_create validate_exactConfig (by decide) rfl 0
  refine ⟨fresh, made, ?_⟩
  intro reg replace
  have reachable : Reachable reg := (Reachable.create rfl made).gate [] true .hadamard 0
  have retains : Retains fresh reg :=
    keeps_applyWhere [] true .hadamard 0 fresh (sound_of_create made rfl).1
  obtain ⟨-, -, generator, rfl⟩ := eq_of_create made
  have width : reg.width = 2 := retains.width
  have narrow : reg.width ≤ exactConfig.denseLimit := by
    rw [width]
    decide
  have dense : reg.width ≤ reg.config.denseLimit := narrow.trans_eq (by rw [retains.config])
  have accepted : ¬ reg.Refuses := accepts_of_narrow retains.factory narrow
  have size : reg.vector.amplitudes.size = 4 := by rw [size_vector, width_vector, width]
  obtain ⟨ops, lists⟩ := withVector_represented reachable dense
  refine ⟨?_, ?_, ?_⟩
  · obtain ⟨returns, represented, -⟩ := ops [] (replace 3)
    let v := { reg.vector with amplitudes := reg.vector.amplitudes.setIfInBounds 3 ⟨2, 0⟩ }
    have ran : replace 3 reg.vector = .ok ((), v) := by
      simp only [replace, StateVector.setAmplitude, size]
      rfl
    have entry (index : BasisIndex) : v.amplitudeD index =
        if index = 3 then ⟨2, 0⟩ else reg.vector.amplitudeD index := by
      simp only [v, StateVector.amplitudeD, Array.getElem?_setIfInBounds, size]
      by_cases here : index = 3
      · simp [here]
      · simp [here, Ne.symm here]
    have some : ¬ v.Vanishes := by
      intro vanishes
      have zero := vanishes 3 (by simp [v, size])
      rw [entry, if_pos rfl] at zero
      simpa using congrArg Complex.re zero
    obtain ⟨⟨⟩, left, run⟩ := returns.mpr ⟨rfl, accepted, (), v, ran, some⟩
    obtain ⟨-, v', ran', found⟩ := represented _ _ run
    cases ran.symm.trans ran'
    rw [width] at found
    refine ⟨left, run, ?_, ?_⟩
    · rw [found 3 (by decide), entry, if_pos rfl]
    · rw [found 0 (by decide), entry, if_neg (by decide), amplitudeD_vector (by rw [width]; decide)]
  · obtain ⟨returns, -, unchanged⟩ := ops [] (replace 4)
    have failed : replace 4 reg.vector = .error (.indexOutOfRange 4) := by
      simp only [replace, StateVector.setAmplitude, size]
      rfl
    generalize run : (withVector [] (replace 4)).runOn reg = answer
    obtain ⟨result, left⟩ := answer
    cases result with
    | ok a =>
        obtain ⟨-, -, _, _, ran, -⟩ := returns.mp ⟨a, left, run⟩
        cases failed.symm.trans ran
    | error e => exact ⟨e, left, rfl, (unchanged e left run).2 0⟩
  · refine lists _ (by rw [width]; rfl) ⟨-1, by simp, fun zero => ?_⟩
    simpa using congrArg (fun a => a.toComplex.re) zero

end AmplitudeTree.Register
