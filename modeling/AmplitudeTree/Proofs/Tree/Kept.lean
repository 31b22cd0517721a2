import AmplitudeTree.Proofs.Tree.Formed
import AmplitudeTree.Proofs.Tree.Probability

/-!
# What a collapse keeps

A collapse joins every node above its qubit anew, from the qubit's level up.  A join drops what it is
left with if that does not exceed the threshold, however much the other paths to the qubit keep.  So
a collapse keeps nothing exactly if the shares that are cut on every level leave nothing at the root.
-/

namespace AmplitudeTree

namespace Unfolding

variable {threshold : ℝ}

/-- A share of a total, where neither the total nor the share counts up to a threshold. -/
noncomputable def cut (threshold share total : ℝ) : ℝ :=
  if total ≤ threshold ∨ share * total ≤ threshold then 0 else share * total

/-- The squared scale that is left when a qubit gets a value and the nodes down to
it are joined anew. -/
noncomputable def kept (threshold : ℝ) (value : Bool) : (steps : ℕ) → Unfolding → ℝ
  | 0, fork c low high =>
      cut threshold (Complex.normSq c) (Complex.normSq (if value then high else low).scale)
  | steps + 1, fork c low high =>
      cut threshold (Complex.normSq c) (kept threshold value steps low + kept threshold value steps high)
  | _, _ => 0

@[simp]
theorem kept_zero (threshold : ℝ) (value : Bool) (steps : ℕ) : zero.kept threshold value steps = 0 := by
  cases steps <;> rfl

end Unfolding

namespace NodeStore

variable {s t : NodeStore ℝ} {id : NodeId}

@[simp]
theorem weight_zero (s : NodeStore ℝ) : s.weight 0 = 0 := by
  rw [Tree.weight_eq, unfold_zero, Unfolding.scale_zero, map_zero]

theorem Extends.weight_eq (growth : s.Extends t) (stored : id < s.size) : t.weight id = s.weight id := by
  rw [Tree.weight_eq, Tree.weight_eq, growth.unfold_eq stored]

/-- Only a node without amplitude weighs nothing. -/
theorem Tolerant.weight_eq_zero_iff (tolerant : s.Tolerant) : s.weight id = 0 ↔ s.isZero id = true := by
  rw [Tree.weight_eq, Complex.normSq_eq_zero]
  cases empty : s.isZero id with
  | true => simp [unfold_of_isZero empty]
  | false => simp [← scale_of_not_isZero empty, tolerant.scale_ne_zero empty]

theorem weight_push (nonempty : 0 < s.size) {node : Node ℝ}
    (scaled : s.negligible node.scale = false) :
    (s.push node).2.weight (s.push node).1 = Complex.normSq node.scale.toComplex := by
  have nonzero : (s.push node).2.isZero (s.push node).1 = false :=
    (isZero_push nonempty node).trans scaled
  rw [weight, scale_eq_of_not_isZero nonzero, fst_push, get_push, Amplitude.normSq_eq]

/-- A join has its share of the weights of its branches, less what the threshold cuts. -/
theorem weight_join (nonempty : 0 < s.size) (nonneg : 0 ≤ s.threshold) (c : Amplitude ℝ)
    (low high : NodeId) :
    (s.join c low high).2.weight (s.join c low high).1 =
      Unfolding.cut s.threshold (Complex.normSq c.toComplex) (s.weight low + s.weight high) := by
  have total : (s.scale low).normSq + (s.scale high).normSq = s.weight low + s.weight high := rfl
  unfold join Unfolding.cut
  dsimp only
  rw [total]
  generalize (if s.negligible (s.scale low) then s.scale high else s.scale low).angle = angle
  by_cases small : s.weight low + s.weight high ≤ s.threshold
  · rw [if_pos ((Scalar.le_iff _ _).mpr small), if_pos (.inl small), weight_zero]
  · have scaled : Complex.normSq (c * Amplitude.ofPolar
        (Scalar.sqrt (s.weight low + s.weight high)) angle).toComplex =
          Complex.normSq c.toComplex * (s.weight low + s.weight high) := by
      rw [Amplitude.toComplex_mul, map_mul, Amplitude.normSq_toComplex_ofPolar, Scalar.sqrt_eq,
        Real.mul_self_sqrt (nonneg.trans (not_le.mp small).le)]
    rw [if_neg (mt (Scalar.le_iff _ _).mp small)]
    generalize Amplitude.ofPolar (Scalar.sqrt (s.weight low + s.weight high)) angle = factor at *
    have first := extends_divideScale s low (s.scale low) factor
    generalize s.divideScale low (s.scale low) factor = low' at *
    have second := extends_divideScale low'.2 high (s.scale high) factor
    generalize low'.2.divideScale high (s.scale high) factor = high' at *
    have growth := first.trans second
    rw [← scaled]
    by_cases tiny : s.negligible (c * factor) = true
    · rw [if_pos tiny, if_pos (.inr ((Amplitude.negligible_iff _ _).mp tiny)), weight_zero]
    · rw [if_neg tiny, if_neg (not_or.mpr ⟨small, mt (Amplitude.negligible_iff _ _).mpr tiny⟩)]
      refine weight_push (nonempty.trans_le growth.size_le) ?_
      rw [negligible, growth.threshold_eq]
      exact Bool.not_eq_true _ ▸ tiny

/-- A collapse leaves of every node what the cuts below it keep. -/
theorem keep_builds (tolerant : s.Tolerant) {width qubit : ℕ} (inside : qubit < width) (value : Bool) :
    s.Builds s (Tree.collapseVisit s qubit value)
      (fun depth id => s.OnLevel False width depth id ∧ depth ≤ qubit)
      (fun depth id t result => RootedBelow width depth id t result ∧
        t.weight result = (s.unfold id).kept s.threshold value (qubit - depth)) where
  level_unique met again nonzero := met.1.unique again.1 nonzero
  grow holds growth := by
    obtain ⟨rooted, weighs⟩ := holds
    exact ⟨rooted.grow growth, (growth.weight_eq rooted.stored).trans weighs⟩
  zero met empty valid := by
    refine ⟨valid.rooted_zero _, ?_⟩
    rw [weight_zero, unfold_of_isZero empty, Unfolding.kept_zero]
  answer {depth id result t} met nonzero visited growth valid := by
    have returns := (Tree.collapse_builds tolerant width qubit value).answer met.1 nonzero visited
      growth valid
    refine ⟨returns.growth, returns.tolerant, returns.holds, ?_⟩
    obtain ⟨leaf, rfl⟩ | ⟨low, high, branches, rfl, rfl⟩ := Tree.collapseVisit_eq_answer visited
    · have last := met.1.eq_width nonzero leaf
      have above := met.2
      omega
    · obtain ⟨lowLt, highLt⟩ := tolerant.branches_lt branches
      have stored := tolerant.lt_size nonzero
      rw [Nat.sub_self, tolerant.unfold_of_branches nonzero branches, Unfolding.kept,
        ← growth.threshold_eq]
      cases value with
      | true =>
          dsimp only
          rw [if_pos rfl, if_pos rfl, weight_join valid.nonempty valid.nonneg, weight_zero,
            zero_add, growth.weight_eq (highLt.trans stored), Tree.weight_eq]
      | false =>
          dsimp only
          rw [if_neg Bool.false_ne_true, if_neg Bool.false_ne_true,
            weight_join valid.nonempty valid.nonneg, weight_zero, add_zero,
            growth.weight_eq (lowLt.trans stored), Tree.weight_eq]
  descend {depth id given given' combine} met nonzero visited := by
    obtain ⟨c, children, lowMet, highMet, ensures⟩ :=
      (Tree.collapse_builds tolerant width qubit value).descend met.1 nonzero visited
    obtain ⟨elsewhere, low, high, branches, rfl, rfl, rfl⟩ := Tree.collapseVisit_eq_descend visited
    obtain rfl := Option.some.inj (children.symm.trans (tolerant.children_eq branches))
    have above : depth + 1 ≤ qubit := lt_of_le_of_ne met.2 elsewhere
    refine ⟨_, children, fun _ => ⟨lowMet rfl, above⟩, fun _ => ⟨highMet rfl, above⟩, ?_⟩
    intro t newLow newHigh growth valid lowHolds highHolds
    have returns := ensures growth valid lowHolds.1 highHolds.1
    refine ⟨returns.growth, returns.tolerant, returns.holds, ?_⟩
    dsimp only
    rw [weight_join valid.nonempty valid.nonneg, lowHolds.2, highHolds.2,
      tolerant.unfold_of_branches nonzero branches, growth.threshold_eq,
      show qubit - depth = qubit - (depth + 1) + 1 by omega]
    rfl

end NodeStore

namespace Tree

variable {t : Tree ℝ} {threshold : ℝ}

/-- A collapse fails exactly if the cuts leave nothing at the root. -/
theorem Formed.collapse_eq_false_iff (formed : t.Formed threshold) {qubit : ℕ}
    (inside : qubit < t.width) (value : Bool) :
    (t.collapse qubit value).1 = false ↔ t.unfold.kept threshold value qubit = 0 := by
  obtain ⟨-, tolerant, -, weighs⟩ := (NodeStore.keep_builds formed.tolerant inside value).walkFrom
    ⟨formed.onLevel, Nat.zero_le _⟩ (.refl _) formed.tolerant
  rw [Nat.sub_zero, formed.threshold_eq] at weighs
  rw [show t.unfold = t.store.unfold t.root from rfl, ← weighs, tolerant.weight_eq_zero_iff]
  unfold Tree.collapse
  dsimp only
  split <;> simp_all

end Tree

end AmplitudeTree
