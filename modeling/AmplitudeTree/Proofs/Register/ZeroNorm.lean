import AmplitudeTree.Proofs.Register.ImposedOutcome
import AmplitudeTree.Proofs.Register.WriteBack
import AmplitudeTree.Proofs.Tree.Branched

/-!
# States without norm

Four actions refuse a state for want of a norm.  Normalizing and drawing a basis state compare the
squared norm with the threshold.  A list that replaces the state, and the result of an operation on
the state vector, are refused if each amplitude by itself does not exceed the threshold.  As many
small amplitudes may add up to any norm, the rules differ unless the threshold is zero or there is
but one amplitude.
-/

namespace AmplitudeTree

open AmplitudeTree.Action

/-! ## Lists of amplitudes -/

noncomputable def listWeight (list : Array (Amplitude ℝ)) : ℝ := (list.toList.map Amplitude.normSq).sum

def EachWithin (threshold : ℝ) (list : Array (Amplitude ℝ)) : Prop :=
  ∀ a ∈ list, a.normSq ≤ threshold

section Lists

variable {list : Array (Amplitude ℝ)} {threshold weight : ℝ} {count length : ℕ}

theorem eachWithin_iff_all :
    EachWithin threshold list ↔ list.all (Amplitude.negligible threshold) = true := by
  simp only [EachWithin, Array.all_eq_true', Amplitude.negligible, Scalar.le_iff]

theorem nonneg_of_mem_map {x : ℝ} (member : x ∈ list.toList.map Amplitude.normSq) : 0 ≤ x := by
  obtain ⟨a, -, rfl⟩ := List.mem_map.mp member
  exact a.normSq_nonneg

theorem eachWithin_of_listWeight_le (below : listWeight list ≤ threshold) :
    EachWithin threshold list := fun _ member =>
  (List.single_le_sum (fun _ => nonneg_of_mem_map) _
    (List.mem_map_of_mem (Array.mem_toList_iff.mpr member))).trans below

theorem EachWithin.listWeight_le (within : EachWithin threshold list) :
    listWeight list ≤ list.size * threshold := by
  have bounded := List.sum_le_card_nsmul (list.toList.map Amplitude.normSq) threshold fun x found => by
    obtain ⟨a, member, rfl⟩ := List.mem_map.mp found
    exact within a (Array.mem_toList_iff.mp member)
  rwa [List.length_map, Array.length_toList, nsmul_eq_mul] at bounded

noncomputable def spreadList (count length : ℕ) (weight : ℝ) : Array (Amplitude ℝ) :=
  .replicate count (.ofReal √(weight / count)) ++ .replicate (length - count) 0

theorem size_spreadList (le : count ≤ length) (weight : ℝ) :
    (spreadList count length weight).size = length := by
  rw [spreadList, Array.size_append, Array.size_replicate, Array.size_replicate,
    Nat.add_sub_cancel' le]

theorem normSq_part (nonneg : 0 ≤ weight) (count : ℕ) :
    (Amplitude.ofReal √(weight / count)).normSq = weight / count := by
  rw [Amplitude.normSq_eq, Amplitude.normSq_ofReal, Real.mul_self_sqrt (by positivity)]

theorem listWeight_spreadList (nonneg : 0 ≤ weight) (some : count ≠ 0) (length : ℕ) :
    listWeight (spreadList count length weight) = weight := by
  rw [listWeight, spreadList, Array.toList_append, Array.toList_replicate, Array.toList_replicate,
    List.map_append, List.map_replicate, List.map_replicate, List.sum_append, List.sum_replicate,
    List.sum_replicate, normSq_part nonneg, Amplitude.normSq_zero, smul_zero, add_zero, nsmul_eq_mul,
    mul_div_cancel₀ _ (Nat.cast_ne_zero.mpr some)]

theorem eachWithin_spreadList (nonneg : 0 ≤ weight) (some : count ≠ 0) (threshold_nonneg : 0 ≤ threshold)
    (length : ℕ) :
    EachWithin threshold (spreadList count length weight) ↔ weight ≤ count * threshold := by
  rw [← div_le_iff₀' (by positivity), ← normSq_part nonneg]
  constructor
  · intro within
    exact within _ (Array.mem_append_left _ (Array.mem_replicate.mpr ⟨some, rfl⟩))
  · intro small a member
    rcases Array.mem_append.mp member with part | rest
    · rwa [(Array.mem_replicate.mp part).2]
    · rwa [(Array.mem_replicate.mp rest).2, Amplitude.normSq_zero]

end Lists

namespace Tree

/-- The squared norm of a branched tree is that of the list of its amplitudes. -/
theorem Branched.normSq_eq_listWeight {t : Tree ℝ} (branched : t.Branched) :
    t.normSq = listWeight t.amplitudes := by
  rw [branched.normSq_eq, weightWhere, listWeight, amplitudes, Array.toList_ofFn, List.map_ofFn,
    List.sum_ofFn, Finset.sum_range]
  rfl

theorem Formed.branched {t : Tree ℝ} {threshold : ℝ} (formed : t.Formed threshold) : t.Branched :=
  branched_iff_deep.mpr ⟨formed.tolerant.toOrdered, formed.rooted.regular.deep⟩

end Tree

namespace Register

variable {α : Type} {reg left : Register ℝ} {list : Array (Amplitude ℝ)} {required : List OperatorSet}

/-! ## What reports a missing norm -/

def ReportsZero (action : Action ℝ α) (reg left : Register ℝ) : Prop :=
  action.runOn reg = (.error .zeroNorm, left)

theorem reportsZero_check_bind {condition : Register ℝ → Except (RegisterError ℝ) Unit}
    (other : condition reg ≠ .error .zeroNorm) (x : Action ℝ α) :
    ReportsZero (check condition >>= fun _ => x) reg left ↔
      condition reg = .ok () ∧ ReportsZero x reg left := by
  rw [ReportsZero, runOn_bind, runOn_check]
  cases passes : condition reg with
  | ok _ => exact (and_iff_right rfl).symm
  | error e =>
      refine iff_of_false (fun reported => ?_) fun found => by cases found.1
      cases reported
      exact other passes

theorem checkDense_ne_zeroNorm : reg.checkDense ≠ .error .zeroNorm := by
  unfold checkDense
  split <;> nofun

/-- An action that refuses under a condition, and otherwise does not report. -/
theorem reportsZero_refusal {β : Type} {p : Prop} [Decidable p] {after : β → Action ℝ α}
    {rest : Action ℝ α} (other : ¬ ReportsZero rest reg left) :
    ReportsZero (if p then throw .zeroNorm >>= after else rest) reg left ↔ left = reg ∧ p := by
  split
  · next given =>
      rw [and_iff_left given]
      constructor
      · intro reported
        cases reported
        rfl
      · rintro rfl
        rfl
  · next free => exact iff_of_false other fun found => free found.2

theorem setAmplitudes_reportsZero_iff :
    ReportsZero (setAmplitudes list) reg left ↔
      left = reg ∧ reg.width ≤ reg.config.denseLimit ∧ list.size = 2 ^ reg.width ∧
        EachWithin reg.threshold list := by
  unfold setAmplitudes
  rw [reportsZero_check_bind checkDense_ne_zeroNorm, checkDense_eq_ok]
  change _ ∧ ReportsZero (if _ then _ else _) reg left ↔ _
  by_cases size : list.size = 2 ^ reg.width
  · rw [if_neg (by simp [size]), reportsZero_refusal (fun reported => by cases reported),
      ← eachWithin_iff_all]
    tauto
  · rw [if_pos (by simp [size])]
    refine iff_of_false ?_ fun found => size found.2.2.1
    rintro ⟨-, reported⟩
    cases reported

theorem normalize_reportsZero_iff :
    ReportsZero normalize reg left ↔ left = reg ∧ reg.tree.normSq ≤ reg.threshold := by
  rw [ReportsZero, normalize, runOn_bind, runOn_get, ← Scalar.le_iff]
  exact reportsZero_refusal fun reported => by cases reported

theorem setBasis_not_reportsZero (index : BasisIndex) (phase : Amplitude ℝ) :
    ¬ ReportsZero (setBasis index phase) reg left := by
  have other : reg.checkIndex index ≠ .error .zeroNorm := by
    unfold checkIndex
    cases index.check reg.width <;> nofun
  unfold setBasis
  rw [reportsZero_check_bind other]
  rintro ⟨-, reported⟩
  cases reported

theorem config_settleAll (reg : Register ℝ) : reg.settleAll.config = reg.config := by
  have settles (other : Register ℝ) (qubit : ℕ) (same : other.config = reg.config) :
      (other.settle qubit).config = reg.config := by
    unfold settle
    split
    · exact same
    · exact same
  unfold settleAll
  split
  · exact foldl_holds (·.config = reg.config) settles (List.range reg.width) rfl
  · rfl

theorem sampleIndex_reportsZero_iff {collapse : Bool} :
    ReportsZero (sampleIndex collapse) reg left ↔
      left = reg.settleAll ∧ reg.settleAll.tree.normSq ≤ reg.threshold := by
  change ReportsZero (if _ then _ else _) reg.settleAll left ↔ _
  rw [reportsZero_refusal, Scalar.le_iff, threshold, config_settleAll]
  · rfl
  · generalize reg.settleAll.tree.sample Generator.unit reg.settleAll.generator = drawn
    cases collapse with
    | false =>
        intro reported
        cases reported
    | true =>
        intro reported
        rcases runOn_bind_eq_error.mp reported with failed | ⟨_, middle, -, rest⟩
        · cases failed
        · rcases runOn_bind_eq_error.mp rest with failed | ⟨_, _, -, last⟩
          · exact setBasis_not_reportsZero _ _ failed
          · cases last

theorem mapError_vector_ne_zeroNorm (result : Except VectorError α) :
    result.mapError .vector ≠ .error (.zeroNorm : RegisterError ℝ) := by
  cases result <;> nofun

theorem toVector_not_reportsZero : ¬ ReportsZero (toVector required) reg left := by
  have other : reg.checkOperators required ≠ .error .zeroNorm := by
    unfold checkOperators
    split <;> nofun
  unfold toVector
  rw [reportsZero_check_bind other, reportsZero_check_bind checkDense_ne_zeroNorm]
  rintro ⟨-, -, reported⟩
  exact mapError_vector_ne_zeroNorm _ (congrArg Prod.fst reported)

theorem config_toVector {v : StateVector ℝ} (listed : (toVector required).runOn reg = (.ok v, left)) :
    left.config = reg.config := by
  have preserves : Preserves (·.config = reg.config) (toVector required : Action ℝ (StateVector ℝ)) :=
    (Preserves.check _).bind fun _ => (Preserves.check _).bind fun _ =>
      (Preserves.modify fun other same => (config_settleAll other).trans same).bind fun _ =>
        (Preserves.modifyGet fun _ same => same).bind fun _ =>
          .get_bind fun _ same => same
  have kept := preserves reg rfl
  rwa [listed] at kept

theorem withVector_reportsZero_iff {op : StateVector ℝ → Except VectorError (α × StateVector ℝ)} :
    ReportsZero (withVector required op) reg left ↔
      ∃ v result, (toVector required).runOn reg = (.ok v, left) ∧ op v = .ok result ∧
        EachWithin reg.threshold result.2.amplitudes := by
  -- once the state vector is listed, its register is what remains
  have finishes {v : StateVector ℝ} {listed : Register ℝ}
      (lists : (toVector required).runOn reg = (.ok v, listed)) :
      ReportsZero (withVector required op) reg left ↔ left = listed ∧ ∃ result, op v = .ok result ∧
        EachWithin reg.threshold result.2.amplitudes := by
    rw [withVector, ReportsZero, runOn_bind_of_ok lists, runOn_bind, runOn_ofExcept]
    cases applied : op v with
    | error e =>
        refine iff_of_false (fun reported => ?_) ?_
        · cases reported
        · rintro ⟨-, _, found, -⟩
          cases found
    | ok result =>
        change ReportsZero (if _ then _ else _) listed left ↔ _
        rw [reportsZero_refusal (fun reported => by cases reported), threshold, config_toVector lists,
          ← threshold, ← eachWithin_iff_all]
        refine and_congr_right fun _ => ⟨fun within => ⟨result, rfl, within⟩, ?_⟩
        rintro ⟨_, found, within⟩
        cases found
        exact within
  constructor
  · intro reported
    rcases runOn_bind_eq_error.mp reported with failed | ⟨v, listed, lists, -⟩
    · exact absurd failed toVector_not_reportsZero
    · obtain ⟨rfl, result, applied, within⟩ := (finishes lists).mp reported
      exact ⟨v, result, lists, applied, within⟩
  · rintro ⟨v, result, lists, applied, within⟩
    exact (finishes lists).mpr ⟨rfl, result, applied, within⟩

/-! ## The rules compared -/

section Rules

variable {weight : ℝ}

theorem listWeight_le_of_eachWithin (size : list.size = 2 ^ reg.width)
    (within : EachWithin reg.threshold list) : listWeight list ≤ 2 ^ reg.width * reg.threshold := by
  have bounded := within.listWeight_le
  rwa [size, Nat.cast_pow, Nat.cast_ofNat] at bounded

/-- All lists of a squared norm are refused just in case it does not exceed the threshold. -/
theorem refuses_every_list_iff (nonneg : 0 ≤ reg.threshold)
    (dense : reg.width ≤ reg.config.denseLimit) (weight_nonneg : 0 ≤ weight) :
    (∀ list, list.size = 2 ^ reg.width → listWeight list = weight →
        ReportsZero (setAmplitudes list) reg reg) ↔
      weight ≤ reg.threshold := by
  constructor
  · intro every
    -- the whole weight may lie on one basis state
    have reported := every (spreadList 1 (2 ^ reg.width) weight)
      (size_spreadList Nat.one_le_two_pow weight) (listWeight_spreadList weight_nonneg one_ne_zero _)
    obtain ⟨-, -, -, within⟩ := setAmplitudes_reportsZero_iff.mp reported
    rwa [eachWithin_spreadList weight_nonneg one_ne_zero nonneg, Nat.cast_one, one_mul] at within
  · rintro below list size rfl
    exact setAmplitudes_reportsZero_iff.mpr ⟨rfl, dense, size, eachWithin_of_listWeight_le below⟩

/-- Some list of a squared norm is refused if the norm can be spread over all basis states. -/
theorem refuses_some_list_iff (nonneg : 0 ≤ reg.threshold)
    (dense : reg.width ≤ reg.config.denseLimit) (weight_nonneg : 0 ≤ weight) :
    (∃ list, list.size = 2 ^ reg.width ∧ listWeight list = weight ∧
        ReportsZero (setAmplitudes list) reg reg) ↔
      weight ≤ 2 ^ reg.width * reg.threshold := by
  have states : 2 ^ reg.width ≠ 0 := (Nat.two_pow_pos _).ne'
  constructor
  · rintro ⟨list, size, rfl, reported⟩
    obtain ⟨-, -, -, within⟩ := setAmplitudes_reportsZero_iff.mp reported
    exact listWeight_le_of_eachWithin size within
  · intro below
    have size := size_spreadList (le_refl (2 ^ reg.width)) weight
    have within := (eachWithin_spreadList weight_nonneg states nonneg (2 ^ reg.width)).mpr
      (by rwa [Nat.cast_pow, Nat.cast_ofNat])
    exact ⟨_, size, listWeight_spreadList weight_nonneg states _,
      setAmplitudes_reportsZero_iff.mpr ⟨rfl, dense, size, within⟩⟩

end Rules

/-- No complete list or result with a squared norm above the threshold is refused. -/
structure RefusesByTotal (reg : Register ℝ) : Prop where
  list : ∀ {list left}, list.size = 2 ^ reg.width → reg.threshold < listWeight list →
    ¬ ReportsZero (setAmplitudes list) reg left
  result : ∀ {α : Type} {required left v result}
    {op : StateVector ℝ → Except VectorError (α × StateVector ℝ)},
    (toVector required).runOn reg = (.ok v, left) → op v = .ok result →
    result.2.amplitudes.size = 2 ^ reg.width → reg.threshold < listWeight result.2.amplitudes →
    ¬ ReportsZero (withVector required op) reg left

/-- Over two basis states some squared norm above a positive threshold may be spread. -/
theorem refusesByTotal_iff (nonneg : 0 ≤ reg.threshold)
    (dense : reg.width ≤ reg.config.denseLimit) :
    RefusesByTotal reg ↔ reg.threshold = 0 ∨ reg.width = 0 := by
  constructor
  · intro rule
    by_contra neither
    obtain ⟨nonzero, wide⟩ := not_or.mp neither
    have positive : 0 < reg.threshold := lt_of_le_of_ne nonneg (Ne.symm nonzero)
    have two : (2 : ℝ) ≤ 2 ^ reg.width := le_self_pow₀ one_le_two wide
    have above : reg.threshold < 2 ^ reg.width * reg.threshold := by nlinarith
    obtain ⟨list, size, weight, reported⟩ :=
      (refuses_some_list_iff nonneg dense (nonneg.trans above.le)).mpr (le_refl _)
    exact rule.list size (weight ▸ above) reported
  · intro given
    have total {list : Array (Amplitude ℝ)} (size : list.size = 2 ^ reg.width)
        (within : EachWithin reg.threshold list) : listWeight list ≤ reg.threshold := by
      have bounded := listWeight_le_of_eachWithin size within
      rcases given with zero | narrow
      · rwa [zero, mul_zero, ← zero] at bounded
      · rwa [narrow, pow_zero, one_mul] at bounded
    constructor
    · intro list left size above reported
      obtain ⟨-, -, -, within⟩ := setAmplitudes_reportsZero_iff.mp reported
      exact absurd above (not_lt.mpr (total size within))
    · intro α required left v result op lists applied size above reported
      obtain ⟨v', result', lists', applied', within⟩ := withVector_reportsZero_iff.mp reported
      cases lists.symm.trans lists'
      cases applied.symm.trans applied'
      exact absurd above (not_lt.mpr (total size within))

/-- A list or result is refused just in case none of its amplitudes exceeds the threshold, but a
state is refused by its squared norm.  The two rules agree just in case the threshold is zero or
there is no qubit. -/
theorem zeroNorm_reported (nonneg : 0 ≤ reg.threshold) (dense : reg.width ≤ reg.config.denseLimit) :
    (∀ list left, ReportsZero (setAmplitudes list) reg left ↔
      left = reg ∧ list.size = 2 ^ reg.width ∧ EachWithin reg.threshold list) ∧
    (∀ {α : Type} (required : List OperatorSet)
      (op : StateVector ℝ → Except VectorError (α × StateVector ℝ)) (left : Register ℝ),
      ReportsZero (withVector required op) reg left ↔
        ∃ v result, (toVector required).runOn reg = (.ok v, left) ∧ op v = .ok result ∧
          EachWithin reg.threshold result.2.amplitudes) ∧
    (∀ left, ReportsZero normalize reg left ↔ left = reg ∧ reg.tree.normSq ≤ reg.threshold) ∧
    (∀ collapse left, ReportsZero (sampleIndex collapse) reg left ↔
      left = reg.settleAll ∧ reg.settleAll.tree.normSq ≤ reg.threshold) ∧
    (reg.threshold < 1 / 2 →
      Attainable (fun config => config.separability = reg.threshold) (fun _ _ => True) reg →
      reg.tree.normSq = listWeight reg.tree.amplitudes ∧
        reg.settleAll.tree.normSq = listWeight reg.settleAll.tree.amplitudes) ∧
    (∀ weight, 0 ≤ weight →
      ((∀ list, list.size = 2 ^ reg.width → listWeight list = weight →
          ReportsZero (setAmplitudes list) reg reg) ↔ weight ≤ reg.threshold) ∧
      ((∃ list, list.size = 2 ^ reg.width ∧ listWeight list = weight ∧
          ReportsZero (setAmplitudes list) reg reg) ↔ weight ≤ 2 ^ reg.width * reg.threshold)) ∧
    (RefusesByTotal reg ↔ reg.threshold = 0 ∨ reg.width = 0) := by
  refine ⟨fun list left => ?_, fun required op left => withVector_reportsZero_iff,
    fun left => normalize_reportsZero_iff, fun collapse left => sampleIndex_reportsZero_iff,
    fun small attainable => ?_, fun weight weight_nonneg => ?_, refusesByTotal_iff nonneg dense⟩
  · rw [setAmplitudes_reportsZero_iff, and_iff_right dense]
  · have formed := attainable.holds (stable_formed small)
    have settled := attainable.settled.holds (stable_formed small)
    exact ⟨formed.tree.branched.normSq_eq_listWeight, settled.tree.branched.normSq_eq_listWeight⟩
  · exact ⟨refuses_every_list_iff nonneg dense weight_nonneg,
      refuses_some_list_iff nonneg dense weight_nonneg⟩

/-- Four equal amplitudes at a threshold of three tenths can be normalized and drawn from, but are
refused as a list. -/
theorem zeroNorm_reported_quarters :
    ∃ reg : Register ℝ, reg.Idle (3 / 10) (Tree.turnedTree (3 / 10) √(1 / 2) √(1 / 2) √(1 / 2) 11) ∧
      0 ≤ reg.threshold ∧ reg.width ≤ reg.config.denseLimit ∧ reg.normSq = 1 ∧
      (∀ left, ¬ ReportsZero normalize reg left) ∧
      (∀ collapse left, ¬ ReportsZero (sampleIndex collapse) reg left) ∧
      ReportsZero (setAmplitudes reg.tree.amplitudes) reg reg := by
  have square : √(1 / 2) * √(1 / 2) = (1 / 2 : ℝ) := Real.mul_self_sqrt (by norm_num)
  have spread := Tree.spread_halves
  obtain ⟨reg, idle, config⟩ := exists_turned spread
  have width : reg.width = 2 := congrArg Tree.width idle.tree_eq
  have unit : reg.tree.normSq = 1 := idle.tree_eq ▸ spread.normSq_eq
  have nonneg : 0 ≤ reg.threshold := idle.threshold_eq ▸ spread.nonneg
  have dense : reg.width ≤ reg.config.denseLimit := by
    rw [width, config]
    decide
  obtain ⟨lists, -, normalizes, draws, -⟩ := zeroNorm_reported nonneg dense
  have large : ¬ (1 : ℝ) ≤ reg.threshold := by
    rw [idle.threshold_eq]
    norm_num
  have own (index : BasisIndex) : (reg.tree.amplitude index).normSq ≤ reg.threshold := by
    rw [idle.tree_eq, spread.normSq_amplitude, square, idle.threshold_eq, ite_self]
    norm_num
  refine ⟨reg, idle, nonneg, dense, unit, fun left => ?_, fun collapse left => ?_,
    (lists _ _).mpr ⟨rfl, ?_, fun a member => ?_⟩⟩
  · rw [normalizes, unit]
    exact fun found => large found.2
  · rw [draws, idle.settleAll_eq, unit]
    exact fun found => large found.2
  · exact Array.size_ofFn
  · obtain ⟨index, rfl⟩ := Array.mem_ofFn.mp member
    exact own index

end Register

end AmplitudeTree
