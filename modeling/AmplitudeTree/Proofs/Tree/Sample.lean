import AmplitudeTree.Proofs.Tree.Probability

/-!
# Drawing a basis state level by level

A draw of a basis state follows a path down the tree.  On a canonical tree the path takes the branch
for 1 just in case the draw is less than the squared scale of this branch.  The node that the path has
reached stands for the part of the state where the qubits above it have the values that have been
drawn: its squared norm is the squared scale of the node.
-/

namespace AmplitudeTree

namespace BasisIndex

variable {index : BasisIndex} {qubit : ℕ}

def extended (index : BasisIndex) (qubit : ℕ) (value : Bool) : BasisIndex :=
  if value then index ||| .power qubit else index

theorem extended_lt (below : index < 2 ^ qubit) (value : Bool) :
    index.extended qubit value < 2 ^ (qubit + 1) := by
  have low : index < 2 ^ (qubit + 1) := below.trans (Nat.pow_lt_pow_succ (by decide))
  cases value with
  | false => exact low
  | true => exact Nat.or_lt_two_pow low (power_lt qubit.lt_succ_self)

theorem testBit_extended (below : index < 2 ^ qubit) (value : Bool) :
    (index.extended qubit value).testBit = Function.update index.testBit qubit value := by
  cases value with
  | false =>
      have unset : false = index.testBit qubit := (Nat.testBit_lt_two_pow below).symm
      rw [unset, Function.update_eq_self, ← unset]
      rfl
  | true => exact testBit_or_power index qubit

end BasisIndex

namespace Tree

variable {index : BasisIndex} {qubit : ℕ} {u : Unfolding}

/-! ## Paths -/

/-- The amplitudes below a node where the qubits above it have the values of an index. -/
noncomputable def pathState (index : BasisIndex) (qubit : ℕ) (u : Unfolding) (bits : Assignment) :
    ℂ :=
  basisState index 0 qubit (u.amplitude qubit bits) bits

theorem pathState_zero (index : BasisIndex) (qubit : ℕ) : pathState index qubit .zero = 0 := by
  funext bits
  rw [pathState, basisState, Unfolding.amplitude_zero, ite_self]
  rfl

theorem pathState_root (index : BasisIndex) (u : Unfolding) :
    pathState index 0 u = u.amplitude 0 :=
  funext fun _ => basisState_self ..

theorem basisState_extended (below : index < 2 ^ qubit) (value : Bool) (phase : ℂ)
    (bits : Assignment) :
    basisState (index.extended qubit value) 0 (qubit + 1) phase bits =
      if bits qubit = value then basisState index 0 qubit phase bits else 0 := by
  have step : (∀ q, 0 ≤ q → q < qubit + 1 → bits q = (index.extended qubit value).testBit q) ↔
      bits qubit = value ∧ ∀ q, 0 ≤ q → q < qubit → bits q = index.testBit q := by
    rw [BasisIndex.testBit_extended below]
    constructor
    · intro found
      refine ⟨by simpa using found qubit (Nat.zero_le _) qubit.lt_succ_self, fun q _ upper => ?_⟩
      simpa [upper.ne] using found q (Nat.zero_le _) (upper.trans qubit.lt_succ_self)
    · rintro ⟨here, above⟩ q _ upper
      rcases Nat.eq_or_lt_of_le (Nat.le_of_lt_succ upper) with rfl | upper
      · simpa using here
      · simpa [upper.ne] using above q (Nat.zero_le _) upper
  rw [basisState, basisState, ← ite_and]
  exact if_congr step rfl rfl

/-- A step down a path takes the part of the state where one more qubit has a value. -/
theorem projected_pathState (below : index < 2 ^ qubit) (c : ℂ) (low high : Unfolding)
    (value : Bool) :
    projected qubit value (pathState index qubit (.fork c low high)) =
      c • pathState (index.extended qubit value) (qubit + 1) (if value then high else low) := by
  funext bits
  rw [projected, Pi.smul_apply, smul_eq_mul, pathState, pathState, basisState_extended below,
    Unfolding.amplitude_fork]
  by_cases here : bits qubit = value
  · rw [if_pos here, if_pos here, here, basisState, basisState, ← mul_ite_zero]
    cases value <;> rfl
  · rw [if_neg here, if_neg here, mul_zero]

/-- The squared norm of the part of a state that a node stands for is its weight. -/
theorem mass_pathState_of_deep {levels : ℕ} (deep : u.Deep levels) (below : index < 2 ^ qubit) :
    mass (qubit + levels) (pathState index qubit u) = u.weight := by
  induction levels generalizing u qubit index with
  | zero =>
      have single (other : BasisIndex) (member : other ∈ Finset.range (2 ^ qubit))
          (ne : other ≠ index) :
          Complex.normSq (pathState index qubit u other.testBit) = 0 := by
        rw [pathState, basisState, if_neg, map_zero]
        intro same
        exact ne (BasisIndex.eq_of_testBit (Finset.mem_range.mp member) below
          fun q inside => same q (Nat.zero_le q) inside)
      have bottom : Complex.normSq (u.amplitude qubit index.testBit) = u.weight := by
        by_cases empty : u = .zero
        · rw [empty]
          exact map_zero _
        · obtain ⟨c, rfl⟩ := deep.leaf_of_zero empty
          rfl
      rw [Nat.add_zero, mass_eq_sum, Finset.sum_eq_single index single
        fun outside => absurd (Finset.mem_range.mpr below) outside, pathState, basisState,
        if_pos fun _ _ _ => rfl, bottom]
  | succ levels ih =>
      by_cases empty : u = .zero
      · rw [empty, pathState_zero, mass_zero, Unfolding.weight]
      · obtain ⟨c, low, high, rfl, lowDeep, highDeep⟩ := deep.fork_of_succ empty
        have levelsEq : qubit + (levels + 1) = qubit + 1 + levels := by omega
        rw [← mass_projected_add _ qubit, projected_pathState below, projected_pathState below,
          mass_smul, mass_smul, levelsEq, if_neg Bool.false_ne_true, if_pos rfl,
          ih lowDeep (BasisIndex.extended_lt below false),
          ih highDeep (BasisIndex.extended_lt below true), ← mul_add, Unfolding.weight]

/-- The part of a state that a canonical node stands for has its squared scale as its norm. -/
theorem mass_pathState {levels : ℕ} (regular : u.Regular True levels) (below : index < 2 ^ qubit) :
    mass (qubit + levels) (pathState index qubit u) = Complex.normSq u.scale := by
  rw [mass_pathState_of_deep regular.deep below, regular.weight_eq]

theorem mass_basisState (width : ℕ) (below : index < 2 ^ width) :
    mass width (basisState index 0 width 1) = 1 := by
  have leaf : (Unfolding.leaf 1).Regular True 0 := one_ne_zero
  have path := mass_pathState leaf below
  rwa [Nat.add_zero, Unfolding.scale_leaf, map_one] at path

/-! ## Draws -/

variable {s : NodeStore ℝ} {weights : Std.HashMap NodeId ℝ} {width : ℕ} {id low high : NodeId}

/-- A draw takes the branch for 1 if it is less than the squared scale of this branch. -/
theorem Measures.sampleFrom_succ {γ : Type} (measures : Measures s weights) (ordered : s.Ordered)
    (onLevel : s.OnLevel True width qubit id) (nonzero : s.isZero id = false)
    (known : id ∈ weights) (branches : (s.get id).branches = some (low, high))
    (draw : γ → ℝ × γ) (levels : ℕ) (index : BasisIndex) (source : γ) :
    let value := Scalar.lt (draw source).1 (Complex.normSq (s.unfold high).scale)
    sampleFrom s weights draw (levels + 1) qubit id index source =
      sampleFrom s weights draw levels (qubit + 1) (if value then high else low)
        (index.extended qubit value) (draw source).2 := by
  intro value
  obtain ⟨lowKnown, highKnown⟩ := measures.closed id known low high branches
  obtain ⟨-, -, lowLevel, highLevel, balanced⟩ := onLevel.fork ordered nonzero branches
  have total := (balanced trivial).total
  have some : Scalar.le (Complex.normSq (s.unfold low).scale + Complex.normSq (s.unfold high).scale)
      (0 : ℝ) = false := by
    rw [total, ← Bool.not_eq_true, Scalar.le_iff, not_le]
    exact one_pos
  rw [sampleFrom, nonzero, if_neg Bool.false_ne_true, branches]
  dsimp only
  rw [measures.weight_mul lowKnown, measures.weight_mul highKnown, lowLevel.regular.weight_eq,
    highLevel.regular.weight_eq, some, if_neg Bool.false_ne_true, total, mul_one]
  change (if value = true then _ else _) = _
  cases value <;> rfl

end Tree

end AmplitudeTree
