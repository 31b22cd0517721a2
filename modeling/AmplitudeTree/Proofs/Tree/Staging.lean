import AmplitudeTree.Proofs.Tree.Basic
import AmplitudeTree.Tree.Staging

/-!
# Trees from amplitude lists

A staging tree holds amplitudes that are not zero only.  So the tree built from it is regular, and
its canonical form is sound.
-/

namespace AmplitudeTree

namespace StagingTree

variable {t : StagingTree ℝ}

def Scaled (t : StagingTree ℝ) : Prop :=
  ∀ (slot : ℕ) (a : Amplitude ℝ), t.slots[slot]?.bind StagedNode.amplitude = some a →
    a.toComplex ≠ 0

theorem scaled_empty (width : ℕ) : (empty width : StagingTree ℝ).Scaled := by
  intro slot a found
  unfold empty at found
  rw [Array.getElem?_replicate] at found
  split at found <;> cases found

theorem Scaled.modify (scaled : t.Scaled) (slot next : ℕ) {change : StagedNode ℝ → StagedNode ℝ}
    (changes : ∀ node a, (change node).amplitude = some a →
      node.amplitude = some a ∨ a.toComplex ≠ 0) :
    Scaled ⟨t.slots.modify slot change, next⟩ := by
  intro other a found
  rw [Array.getElem?_modify] at found
  have known := scaled other a
  cases stored : t.slots[other]? with
  | none =>
      rw [stored] at found
      split at found <;> cases found
  | some node =>
      rw [stored] at found known
      split at found
      · rcases changes node a found with kept | nonzero
        · exact known kept
        · exact nonzero
      · exact known found

theorem Scaled.branch (scaled : t.Scaled) (slot : ℕ) : (t.branch slot).2.Scaled := by
  unfold StagingTree.branch
  split
  · exact scaled
  · exact scaled.modify slot _ fun node a found => .inl found

theorem Scaled.descend (scaled : t.Scaled) (index : BasisIndex) (levels qubit slot : ℕ) :
    (descend index levels qubit slot t).2.Scaled := by
  induction levels generalizing t qubit slot with
  | zero => exact scaled
  | succ levels ih => exact ih (scaled.branch slot) _ _

theorem Scaled.insert (scaled : t.Scaled) (width : ℕ) (index : BasisIndex) {a : Amplitude ℝ}
    (nonzero : a.toComplex ≠ 0) : (t.insert width index a).Scaled := by
  refine (scaled.descend index width 0 0).modify _ _ fun node b found => ?_
  dsimp only at found
  cases stored : node.amplitude with
  | none =>
      rw [stored] at found
      cases found
      exact .inr nonzero
  | some c =>
      rw [stored] at found
      exact .inl found

theorem Scaled.insertAll (scaled : t.Scaled) (width : ℕ) (source : BasisIndex → Amplitude ℝ)
    (order : List BasisIndex) : (t.insertAll width source order).Scaled := by
  unfold StagingTree.insertAll
  induction order generalizing t with
  | nil => exact scaled
  | cons index order ih =>
      apply ih
      dsimp only
      split
      · next positive =>
          refine scaled.insert width index fun empty => ?_
          rw [Scalar.lt_iff, Amplitude.normSq_eq, empty, Complex.normSq_zero] at positive
          exact lt_irrefl _ positive
      · exact scaled

/-- The store built from a staging tree holds a regular tree. -/
theorem Scaled.build (scaled : t.Scaled) {s : NodeStore ℝ} (exact : s.Exact) (levels slot : ℕ) :
    s.Yields (t.build levels slot s) fun u => u.Regular False levels := by
  induction levels generalizing s slot with
  | zero =>
      rw [StagingTree.build]
      split
      · next a found =>
          refine (exact.push_leaf (scaled slot a found)).mono fun u result => ?_
          rw [result]
          exact scaled slot a found
      · exact .of_zero exact Unfolding.regular_zero
  | succ levels ih =>
      rw [StagingTree.build]
      split
      · exact .of_zero exact Unfolding.regular_zero
      · next first found =>
          have low := ih exact first
          have high := ih low.exact (first + 1)
          have growth := low.growth.trans high.growth
          dsimp only
          split
          · exact (NodeStore.Yields.of_zero high.exact Unfolding.regular_zero).after growth
          · next some =>
              have scaled : (1 : Amplitude ℝ).toComplex ≠ 0 := one_ne_zero
              have pushed := high.exact.push_fork scaled (high.lt_size low.stored) high.stored
              refine (pushed.after growth).mono fun u result => ?_
              rw [result, high.unfold_eq low.stored]
              refine ⟨scaled, ?_, low.holds, high.holds, False.elim⟩
              rw [← not_and_or, NodeStore.unfold_eq_zero, NodeStore.unfold_eq_zero]
              rintro ⟨lowEmpty, highEmpty⟩
              refine some (Bool.and_eq_true_iff.mpr ⟨?_, ?_⟩)
              · exact beq_iff_eq.mpr (low.clean lowEmpty)
              · exact beq_iff_eq.mpr (high.clean highEmpty)

end StagingTree

namespace Tree

/-- The tree of a list of amplitudes is sound. -/
theorem sound_ofAmplitudes (width : ℕ) (source : BasisIndex → Amplitude ℝ) :
    (ofAmplitudes width 0 source).Sound True := by
  have scaled := (StagingTree.scaled_empty width).insertAll width source (List.range (2 ^ width))
  have built := scaled.build .empty width 0
  have staged : (ofStaged width 0
      ((StagingTree.empty width).insertAll width source (List.range (2 ^ width)))).Sound False :=
    .of_clean built.exact built.stored built.clean built.holds
  exact staged.canonicalize.1.reduce

@[simp]
theorem width_ofAmplitudes (width : ℕ) (source : BasisIndex → Amplitude ℝ) :
    (ofAmplitudes width 0 source).width = width := rfl

end Tree

end AmplitudeTree
