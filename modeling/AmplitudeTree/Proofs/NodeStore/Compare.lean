import AmplitudeTree.NodeStore.Compare
import AmplitudeTree.Proofs.NodeStore.Basic

/-!
# Comparison of nodes

The pairs that a comparison remembers do not change its answer, and neither does the stop at one and
the same node, as long as zero is negligible: it answers as the comparison of all paths.

In an exact store two nodes agree exactly if they have the same unfolding, and they have the same
shape exactly if their unfoldings differ in the topmost scale at most.
-/

namespace AmplitudeTree.NodeStore

variable {s t : NodeStore ℝ} {a b id : NodeId} {proven : Proven}

/-! ## Comparison of all paths -/

/-- Two nodes have one shape if neither has branches or their branches agree. -/
theorem unfoldedSameShape_eq (s : NodeStore ℝ) (a b : NodeId) :
    s.unfoldedSameShape a b =
      match s.children a, s.children b with
      | none, none => true
      | some c, some d => s.unfoldedAgrees c.low d.low && s.unfoldedAgrees c.high d.high
      | _, _ => false := by
  rw [unfoldedSameShape]
  cases s.children a <;> cases s.children b <;> rfl

theorem unfoldedAgrees_self (nonnegative : 0 ≤ s.threshold)
    (shape : s.unfoldedSameShape a a = true) : s.unfoldedAgrees a a = true := by
  have near : s.negligible ((s.get a).scale - (s.get a).scale) = true := by
    rw [negligible, Amplitude.negligible_iff, Amplitude.toComplex_sub, sub_self, Complex.normSq_zero]
    exact nonnegative
  rw [unfoldedAgrees, near, shape]
  cases s.isZero a <;> rfl

/-- If zero is negligible, every node has the shape of itself. -/
theorem unfoldedSameShape_self (nonnegative : 0 ≤ s.threshold) (a : NodeId) :
    s.unfoldedSameShape a a = true := by
  induction a using Nat.strong_induction_on with
  | _ a ih =>
      rw [unfoldedSameShape_eq]
      cases s.children a with
      | none => rfl
      | some c =>
          dsimp only
          rw [unfoldedAgrees_self nonnegative (ih c.low c.low_lt),
            unfoldedAgrees_self nonnegative (ih c.high c.high_lt)]
          rfl

/-! ## Remembered pairs -/

def Proven.Holds (s : NodeStore ℝ) (proven : Proven) : Prop :=
  ∀ a b, proven.contains (a, b) = true → s.unfoldedSameShape a b = true

theorem Proven.Holds.empty (s : NodeStore ℝ) : Proven.Holds s ∅ := by
  intro a b found
  simp at found

theorem Proven.Holds.insert (holds : proven.Holds s) (same : s.unfoldedSameShape a b = true) :
    Proven.Holds s (proven.insert (a, b)) := by
  intro c d found
  rw [Std.HashSet.contains_insert, Bool.or_eq_true] at found
  rcases found with found | found
  · obtain ⟨rfl, rfl⟩ := Prod.mk.inj (eq_of_beq found)
    exact same
  · exact holds c d found

/-- What a comparison ensures: it gives the answer, and the pairs that it remembers have one shape. -/
structure Answers (s : NodeStore ℝ) (answer : Bool) (result : Bool × Proven) : Prop where
  answer : result.1 = answer
  holds : Proven.Holds s result.2

theorem Answers.remember {result : Bool × Proven}
    (answers : s.Answers (s.unfoldedSameShape a b) result) :
    s.Answers (s.unfoldedSameShape a b)
      (result.1, if result.1 then result.2.insert (a, b) else result.2) := by
  refine ⟨answers.answer, ?_⟩
  split
  · next found => exact answers.holds.insert (answers.answer.symm.trans found)
  · exact answers.holds

theorem agreesBy_answers {compare : Proven → Bool × Proven}
    (compares : ∀ proven, Proven.Holds s proven →
      s.Answers (s.unfoldedSameShape a b) (compare proven)) (holds : Proven.Holds s proven) :
    s.Answers (s.unfoldedAgrees a b) (s.agreesBy a b compare proven) := by
  unfold agreesBy unfoldedAgrees
  cases s.isZero a <;> cases s.isZero b <;> dsimp only
  · split
    · next near =>
        rw [near, Bool.true_and]
        exact compares proven holds
    · next far =>
        rw [Bool.not_eq_true] at far
        rw [far]
        exact ⟨rfl, holds⟩
  all_goals exact ⟨rfl, holds⟩

/-- Whatever pairs of one shape a comparison starts from, it answers as the comparison of all paths. -/
theorem sameShapeFrom_answers (nonnegative : 0 ≤ s.threshold) (holds : Proven.Holds s proven) :
    s.Answers (s.unfoldedSameShape a b) (s.sameShapeFrom a b proven) := by
  induction a using Nat.strong_induction_on generalizing b proven with
  | _ a ih =>
      rw [sameShapeFrom]
      split
      · next known =>
          refine ⟨?_, holds⟩
          rcases Bool.or_eq_true .. ▸ known with same | found
          · rw [eq_of_beq same, unfoldedSameShape_self nonnegative]
          · exact (holds a b found).symm
      · apply Answers.remember
        rw [unfoldedSameShape_eq]
        match s.children a, s.children b with
        | none, none => exact ⟨rfl, holds⟩
        | none, some _ => exact ⟨rfl, holds⟩
        | some _, none => exact ⟨rfl, holds⟩
        | some ⟨aLow, aHigh, aLowLt, aHighLt⟩, some ⟨bLow, bHigh, _, _⟩ =>
            have low := agreesBy_answers (a := aLow) (b := bLow)
              (fun _ holds => ih aLow aLowLt holds) holds
            have high {proven : Proven} (holds : Proven.Holds s proven) :=
              agreesBy_answers (a := aHigh) (b := bHigh)
                (fun _ holds => ih aHigh aHighLt holds) holds
            dsimp only
            rw [← low.answer]
            -- the second branches are compared with what is remembered from the first ones
            split
            · next lowAgrees =>
                rw [lowAgrees, Bool.true_and]
                exact high low.holds
            · next lowDiffers =>
                rw [Bool.not_eq_true] at lowDiffers
                rw [lowDiffers]
                exact ⟨rfl, low.holds⟩

theorem sameShape_eq (nonnegative : 0 ≤ s.threshold) (a b : NodeId) :
    s.sameShape a b = s.unfoldedSameShape a b :=
  (sameShapeFrom_answers nonnegative (.empty s)).answer

theorem agrees_eq (nonnegative : 0 ≤ s.threshold) (a b : NodeId) :
    s.agrees a b = s.unfoldedAgrees a b :=
  (agreesBy_answers (fun _ holds => sameShapeFrom_answers nonnegative holds) (.empty s)).answer

/-! ## Exact stores -/

noncomputable def shape (s : NodeStore ℝ) (id : NodeId) : Option (Unfolding × Unfolding) :=
  (s.children id).map fun c => (s.unfold c.low, s.unfold c.high)

/-- An unfolding is its scale together with its shape. -/
theorem unfold_eq_iff (aNonzero : s.isZero a = false) (bNonzero : s.isZero b = false) :
    s.unfold a = s.unfold b ↔ (s.get a).scale = (s.get b).scale ∧ s.shape a = s.shape b := by
  rw [← Amplitude.toComplex_inj, unfold, unfold, if_neg (by simp [aNonzero]),
    if_neg (by simp [bNonzero]), shape, shape]
  cases s.children a <;> cases s.children b <;> simp

/-- Nodes that are not zero have one shape if their unfoldings differ in the topmost scale only. -/
theorem shape_eq_iff (aNonzero : s.isZero a = false) (bNonzero : s.isZero b = false) :
    s.shape a = s.shape b ↔ (s.unfold a).withScale 1 = (s.unfold b).withScale 1 := by
  rw [unfold, unfold, if_neg (by simp [aNonzero]), if_neg (by simp [bNonzero]), shape, shape]
  cases s.children a <;> cases s.children b <;> simp [Unfolding.withScale]

theorem Exact.unfoldedAgrees_iff (exact : s.Exact)
    (shapes : s.unfoldedSameShape a b = true ↔ s.shape a = s.shape b) :
    s.unfoldedAgrees a b = true ↔ s.unfold a = s.unfold b := by
  have scales : s.negligible ((s.get a).scale - (s.get b).scale) = true ↔
      (s.get a).scale = (s.get b).scale := by
    rw [exact.negligible_iff, Amplitude.toComplex_sub, sub_eq_zero, Amplitude.toComplex_inj]
  unfold unfoldedAgrees
  cases aZero : s.isZero a <;> cases bZero : s.isZero b <;> dsimp only
  · rw [unfold_eq_iff aZero bZero, Bool.and_eq_true, scales, shapes]
  · rw [unfold_of_isZero bZero]
    exact iff_of_false Bool.false_ne_true (unfold_ne_zero.mpr aZero)
  · rw [unfold_of_isZero aZero]
    exact iff_of_false Bool.false_ne_true (unfold_ne_zero.mpr bZero).symm
  · rw [unfold_of_isZero aZero, unfold_of_isZero bZero]
    exact iff_of_true rfl rfl

theorem Exact.unfoldedSameShape_iff (exact : s.Exact) (a b : NodeId) :
    s.unfoldedSameShape a b = true ↔ s.shape a = s.shape b := by
  induction a using Nat.strong_induction_on generalizing b with
  | _ a ih =>
      rw [unfoldedSameShape_eq, shape, shape]
      match s.children a, s.children b with
      | none, none => exact iff_of_true rfl rfl
      | none, some _ => exact iff_of_false Bool.false_ne_true nofun
      | some _, none => exact iff_of_false Bool.false_ne_true nofun
      | some c, some d =>
          dsimp only
          rw [Bool.and_eq_true, exact.unfoldedAgrees_iff (ih c.low c.low_lt d.low),
            exact.unfoldedAgrees_iff (ih c.high c.high_lt d.high)]
          simp

theorem Exact.sameShape_iff (exact : s.Exact) (a b : NodeId) :
    s.sameShape a b = true ↔ s.shape a = s.shape b := by
  rw [sameShape_eq exact.threshold_eq.ge, exact.unfoldedSameShape_iff]

theorem Exact.agrees_iff (exact : s.Exact) (a b : NodeId) :
    s.agrees a b = true ↔ s.unfold a = s.unfold b := by
  rw [agrees_eq exact.threshold_eq.ge, exact.unfoldedAgrees_iff (exact.unfoldedSameShape_iff a b)]

end AmplitudeTree.NodeStore
