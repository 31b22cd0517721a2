import AmplitudeTree.Proofs.Tree.FullDepth
import AmplitudeTree.Proofs.Tree.Probability

/-!
# Trees with any scales

In a branched tree the nodes that do not count as zero have branches just in case they lie above the
last level.  Nothing is asked of the scales and of the threshold, and any nodes may be shared.  The
norm and the probabilities of such a tree are found with one visit to each distinct node, and yet they
are sums over all basis states: a shared node counts once on each path, and a node that counts as zero
never.
-/

namespace AmplitudeTree

namespace Tree

variable {t : Tree ℝ} {depth : ℕ} {id : NodeId}

/-- The nodes that are met have branches just in case they lie above the last level. -/
structure Branched (t : Tree ℝ) : Prop where
  ordered : t.store.Ordered
  branches_iff : ∀ {depth id}, t.Reaches depth id →
    ((t.store.get id).branches.isSome = true ↔ depth < t.width)

theorem Branched.deep_of_reaches (branched : t.Branched) (le : depth ≤ t.width)
    (reaches : t.Reaches depth id) : (t.store.unfold id).Deep (t.width - depth) := by
  obtain ⟨levels, split⟩ := Nat.exists_eq_add_of_le le
  rw [split, Nat.add_sub_cancel_left]
  -- the induction runs from the leaves up
  induction levels generalizing depth id with
  | zero =>
      cases branches : (t.store.get id).branches with
      | none =>
          rw [NodeStore.unfold_of_leaf reaches.not_isZero branches]
          trivial
      | some pair =>
          have above := (branched.branches_iff reaches).mp (by rw [branches]; rfl)
          exact absurd above (by omega)
  | succ levels ih =>
      cases branches : (t.store.get id).branches with
      | none =>
          have some := (branched.branches_iff reaches).mpr (by omega)
          rw [branches] at some
          cases some
      | some pair =>
          obtain ⟨low, high⟩ := pair
          have below (child : NodeId) (which : child = low ∨ child = high) :
              (t.store.unfold child).Deep levels := by
            cases empty : t.store.isZero child with
            | true =>
                rw [NodeStore.unfold_of_isZero empty]
                exact Unfolding.deep_zero
            | false =>
                exact ih (by omega) (reaches.step ⟨low, high, branches, which, empty⟩) (by omega)
          rw [branched.ordered.unfold_of_branches reaches.not_isZero branches]
          exact ⟨below low (.inl rfl), below high (.inr rfl)⟩

theorem Branched.deep (branched : t.Branched) : t.unfold.Deep t.width := by
  cases empty : t.store.isZero t.root with
  | true =>
      rw [isZero_iff_unfold_eq.mp empty]
      exact Unfolding.deep_zero
  | false => exact branched.deep_of_reaches (Nat.zero_le _) ⟨empty, rfl⟩

theorem deep_of_descends {s : NodeStore ℝ} (ordered : s.Ordered) {top : NodeId} {levels : ℕ}
    (deep : (s.unfold top).Deep levels) (nonzero : s.isZero top = false)
    (descends : s.Descends depth top id) :
    depth ≤ levels ∧ (s.unfold id).Deep (levels - depth) := by
  induction depth generalizing top levels with
  | zero =>
      obtain rfl : id = top := descends
      exact ⟨Nat.zero_le _, deep⟩
  | succ depth ih =>
      obtain ⟨child, ⟨low, high, branches, which, some⟩, rest⟩ := descends
      rw [ordered.unfold_of_branches nonzero branches] at deep
      cases levels with
      | zero => exact deep.elim
      | succ levels =>
          have childDeep : (s.unfold child).Deep levels := by
            obtain rfl | rfl := which
            · exact deep.1
            · exact deep.2
          obtain ⟨le, below⟩ := ih childDeep some rest
          rw [Nat.succ_sub_succ]
          exact ⟨Nat.succ_le_succ le, below⟩

/-- The paths of branched trees all end on the last level or in nodes that count as zero. -/
theorem branched_iff_deep : t.Branched ↔ t.store.Ordered ∧ t.unfold.Deep t.width := by
  refine ⟨fun branched => ⟨branched.ordered, branched.deep⟩, fun ⟨ordered, deep⟩ => ⟨ordered, ?_⟩⟩
  intro depth id reaches
  obtain ⟨le, below⟩ := deep_of_descends ordered deep reaches.1 reaches.2
  cases branches : (t.store.get id).branches with
  | none =>
      rw [NodeStore.unfold_of_leaf reaches.not_isZero branches] at below
      refine iff_of_false nofun fun above => ?_
      rw [← Nat.succ_pred_eq_of_pos (Nat.sub_pos_of_lt above)] at below
      exact below.elim
  | some pair =>
      rw [ordered.unfold_of_branches reaches.not_isZero branches] at below
      refine iff_of_true rfl (lt_of_le_of_ne le fun same => ?_)
      rw [same, Nat.sub_self] at below
      exact below.elim

/-! ## Sums over basis states -/

noncomputable def weightWhere (t : Tree ℝ) (holds : BasisIndex → Bool) : ℝ :=
  ∑ index ∈ Finset.range (2 ^ t.width), if holds index then (t.amplitude index).normSq else 0

/-- Sums over basis states are norms of parts of the state. -/
theorem Branched.weightWhere_eq (branched : t.Branched) {holds : BasisIndex → Bool}
    {part : Assignment → ℂ}
    (parted : ∀ index : BasisIndex, part index.testBit =
      if holds index then t.state index.testBit else 0) :
    t.weightWhere holds = mass t.width part := by
  rw [weightWhere, mass_eq_sum]
  refine Finset.sum_congr rfl fun index _ => ?_
  rw [parted, apply_ite Complex.normSq, map_zero, Amplitude.normSq_eq,
    toComplex_amplitude_of_deep branched.ordered branched.deep]

theorem Branched.normSq_eq (branched : t.Branched) : t.normSq = t.weightWhere fun _ => true := by
  rw [← mass_state_of_deep branched.ordered branched.deep]
  exact (branched.weightWhere_eq fun _ => (if_pos rfl).symm).symm

/-- The squared norm of a branched tree is the sum of the squared moduli of all amplitudes, and the
probability of a qubit its share of this sum; without norm it is zero. -/
theorem norm_and_probability_sum (branched : t.Branched) :
    t.normSq = t.weightWhere (fun _ => true) ∧
    (∀ qubit, t.prob qubit = t.weightWhere (fun index => index.testBit qubit) / t.normSq) ∧
    (t.normSq = 0 → ∀ qubit, t.prob qubit = 0) := by
  have deep := branched.deep
  have share (qubit : ℕ) :
      t.prob qubit = t.weightWhere (fun index => index.testBit qubit) / t.normSq := by
    rw [prob_eq_of_deep branched.ordered deep, normSq_eq_weight branched.ordered]
    congr 1
    by_cases inside : qubit < t.width
    · rw [← mass_projected_of_deep deep inside]
      exact (branched.weightWhere_eq fun _ => rfl).symm
    · rw [deep.part_eq_zero (Nat.le_of_not_lt inside)]
      refine (Finset.sum_eq_zero fun index member => if_neg ?_).symm
      have small : index < 2 ^ qubit := (Finset.mem_range.mp member).trans_le
        (Nat.pow_le_pow_right two_pos (Nat.le_of_not_lt inside))
      exact Bool.eq_false_iff.mp (Nat.testBit_lt_two_pow small)
  refine ⟨branched.normSq_eq, share, fun none qubit => ?_⟩
  rw [share, none, div_zero]

/-- A node over one leaf twice.  The other branch of the root counts as zero although
it has branches too. -/
noncomputable def doubledLeaf : Tree ℝ :=
  .ofStore ⟨#[.leaf 0, .leaf ⟨1, 1⟩, ⟨⟨1, 1⟩, some (1, 1)⟩, ⟨1, some (1, 1)⟩,
    ⟨⟨1, 1⟩, some (2, 3)⟩], 1⟩ 4 2

theorem branches_doubledLeaf {low high : NodeId}
    (branches : (doubledLeaf.store.get id).branches = some (low, high)) : low < id ∧ high < id := by
  match id, branches with
  | 2, branches | 3, branches | 4, branches =>
      cases branches
      decide
  | id + 5, branches =>
      rw [NodeStore.get_of_size_le (s := doubledLeaf.store) (Nat.le_add_left 5 id)] at branches
      cases branches

theorem normSq_doubledLeaf_scale : Complex.normSq (⟨1, 1⟩ : Amplitude ℝ).toComplex = 2 := by
  rw [← Amplitude.normSq_eq]
  norm_num [Amplitude.normSq]

theorem unfold_doubledLeaf :
    let scale := (⟨1, 1⟩ : Amplitude ℝ).toComplex
    doubledLeaf.unfold = .fork scale (.fork scale (.leaf scale) (.leaf scale)) .zero := by
  intro scale
  have ordered : doubledLeaf.store.Ordered := ⟨Nat.succ_pos 4, branches_doubledLeaf⟩
  have some {id : NodeId} (nonzero : id ≠ 0)
      (found : (doubledLeaf.store.get id).scale = ⟨1, 1⟩) : doubledLeaf.store.isZero id = false := by
    refine NodeStore.isZero_eq_false nonzero ?_
    rw [found]
    exact (Amplitude.negligible_eq_false _ _).mpr (normSq_doubledLeaf_scale ▸ one_lt_two)
  have none : doubledLeaf.store.isZero 3 = true := by
    have small : Complex.normSq (1 : Amplitude ℝ).toComplex ≤ 1 := by simp
    exact (Amplitude.negligible_iff _ _).mpr small
  have leaf : doubledLeaf.store.unfold 1 = .leaf scale :=
    NodeStore.unfold_of_leaf (some nofun rfl) rfl
  have pair : doubledLeaf.store.unfold 2 = .fork scale (.leaf scale) (.leaf scale) := by
    rw [← leaf]
    exact ordered.unfold_of_branches (some nofun rfl) rfl
  rw [← pair, ← NodeStore.unfold_of_isZero none]
  exact ordered.unfold_of_branches (some nofun rfl) rfl

theorem branched_doubledLeaf : doubledLeaf.Branched := by
  rw [branched_iff_deep, unfold_doubledLeaf]
  exact ⟨⟨Nat.succ_pos 4, branches_doubledLeaf⟩, ⟨trivial, trivial⟩, trivial⟩

theorem normSq_amplitude_doubledLeaf (index : BasisIndex) :
    (doubledLeaf.amplitude index).normSq = if index.testBit 0 then 0 else 8 := by
  have branched := branched_doubledLeaf
  rw [Amplitude.normSq_eq, toComplex_amplitude_of_deep branched.ordered branched.deep, state,
    unfold_doubledLeaf]
  simp only [Unfolding.amplitude, ite_self, mul_ite, mul_zero]
  split <;> norm_num [normSq_doubledLeaf_scale]

theorem weightWhere_doubledLeaf (holds : BasisIndex → Bool) : doubledLeaf.weightWhere holds =
    (if holds 0 then 8 else 0) + if holds 2 then 8 else 0 := by
  rw [weightWhere, show 2 ^ doubledLeaf.width = 4 from rfl]
  simp [normSq_amplitude_doubledLeaf, Finset.sum_range_succ]

theorem normSq_doubledLeaf : doubledLeaf.normSq = 16 := by
  rw [branched_doubledLeaf.normSq_eq, weightWhere_doubledLeaf, if_pos rfl]
  norm_num

/-- The shared leaf counts on both paths, and the branch that counts as zero does not. -/
theorem norm_and_probability_sum_doubled : doubledLeaf.Branched ∧
    doubledLeaf.normSq = 16 ∧ doubledLeaf.prob 0 = 0 ∧ doubledLeaf.prob 1 = 1 / 2 := by
  obtain ⟨whole, share, -⟩ := norm_and_probability_sum branched_doubledLeaf
  refine ⟨branched_doubledLeaf, whole.trans ?_, ?_, ?_⟩
  · rw [weightWhere_doubledLeaf, if_pos rfl]
    norm_num
  · rw [share, weightWhere_doubledLeaf, if_neg (by decide), if_neg (by decide), add_zero, zero_div]
  · rw [share, weightWhere_doubledLeaf, if_neg (by decide), if_pos (by decide), normSq_doubledLeaf]
    norm_num

end Tree

end AmplitudeTree
