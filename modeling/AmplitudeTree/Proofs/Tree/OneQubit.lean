import AmplitudeTree.Proofs.Tree.CanonicalForm

/-!
# Trees at a threshold

The trees that operations lead to when scales up to a threshold count as zero.  A gate on a basis
state of one qubit gives such a tree for any two amplitudes: its root is the canonical node over two
leaves with these scales.
-/

namespace AmplitudeTree

namespace NodeStore

variable {s t : NodeStore ℝ} {id low high : NodeId} {a b c : Amplitude ℝ}

/-- A stored node that is a leaf of the given scale, or zero because the scale is negligible. -/
structure LeafAt (s : NodeStore ℝ) (id : NodeId) (scale : Amplitude ℝ) : Prop where
  stored : id < s.size
  isZero_eq : s.isZero id = s.negligible scale
  get_eq : s.isZero id = false → s.get id = .leaf scale

theorem LeafAt.grow (leaf : s.LeafAt id a) (growth : s.Extends t) : t.LeafAt id a where
  stored := leaf.stored.trans_le growth.size_le
  isZero_eq := by
    rw [growth.isZero_eq leaf.stored, leaf.isZero_eq, negligible, negligible, growth.threshold_eq]
  get_eq nonzero := by
    rw [growth.isZero_eq leaf.stored] at nonzero
    rw [growth.get_eq id leaf.stored, leaf.get_eq nonzero]

theorem LeafAt.scale_eq (leaf : s.LeafAt id a) (scaled : s.negligible a = false) : s.scale id = a := by
  have nonzero := leaf.isZero_eq.trans scaled
  rw [scale_eq_of_not_isZero nonzero, leaf.get_eq nonzero]
  rfl

structure GivesLeaf (s : NodeStore ℝ) (scale : Amplitude ℝ) (result : NodeId × NodeStore ℝ) : Prop where
  growth : s.Extends result.2
  ordered : result.2.Ordered
  leaf : result.2.LeafAt result.1 scale

theorem LeafAt.rescale (leaf : s.LeafAt id a) (ordered : s.Ordered) (scaled : s.negligible a = false)
    (b : Amplitude ℝ) : s.GivesLeaf b (s.rescale id b) := by
  have nonzero := leaf.isZero_eq.trans scaled
  have found := leaf.get_eq nonzero
  unfold NodeStore.rescale
  cases small : s.negligible b with
  | true =>
      exact ⟨.refl s, ordered, ordered.nonempty, small.symm, fun impossible => by cases impossible⟩
  | false =>
      rw [if_neg Bool.false_ne_true]
      dsimp only
      split
      · next same =>
          rw [Amplitude.same_iff, found] at same
          obtain rfl : a = b := same
          exact ⟨.refl s, ordered, leaf⟩
      · rw [found]
        exact ⟨extends_push s _, ordered.push nofun, by simp, isZero_push ordered.nonempty _,
          fun _ => get_push ..⟩

theorem LeafAt.divideScale (leaf : s.LeafAt id a) (ordered : s.Ordered)
    (scaled : s.negligible a = false) (factor : Amplitude ℝ) :
    s.GivesLeaf (a / factor) (s.divideScale id a factor) := by
  unfold NodeStore.divideScale
  rw [if_neg (by simp [scaled])]
  exact leaf.rescale ordered scaled _

/-- A gate gives a subtree of scale one and a zero one the scales of its left column. -/
theorem mix_column (gate : Gate ℝ) (levels depth : ℕ) (nonzero : s.isZero id = false)
    (unit : s.scale id = 1) :
    s.mix gate levels depth [] id 0 =
      (((s.rescale id gate.topLeft).1,
          ((s.rescale id gate.topLeft).2.rescale id gate.bottomLeft).1),
        ((s.rescale id gate.topLeft).2.rescale id gate.bottomLeft).2) := by
  have empty : s.isZero 0 = true := rfl
  have scales : gate.apply (s.scale id) (s.scale 0) = (gate.topLeft, gate.bottomLeft) := by
    rw [unit, scale_of_isZero empty]
    obtain ⟨first, second⟩ := Gate.toComplex_apply gate 1 0
    refine Prod.ext ?_ ?_ <;> rw [← Amplitude.toComplex_inj]
    · simpa [Gate.mixed] using first
    · simpa [Gate.mixed] using second
  rw [NodeStore.mix.eq_def, if_neg (by simp [nonzero]), if_pos (by simp [empty]), scales,
    if_neg (by simp [nonzero])]

/-- A gate on a leaf of scale one beside zero gives the two leaves of its column. -/
theorem LeafAt.mix (leaf : s.LeafAt id 1) (scaled : s.negligible 1 = false) (depth : ℕ) :
    s.mix ⟨a, 0, b, 0⟩ 0 depth [] id 0 =
      (((s.rescale id a).1, ((s.rescale id a).2.rescale id b).1),
        ((s.rescale id a).2.rescale id b).2) :=
  mix_column ⟨a, 0, b, 0⟩ 0 depth (leaf.isZero_eq.trans scaled) (leaf.scale_eq scaled)

/-- A node that is not zero, over two nodes that stand for leaves. -/
structure PairAt (s : NodeStore ℝ) (id : NodeId) (scale lowScale highScale : Amplitude ℝ) : Prop where
  nonzero : s.isZero id = false
  leaves : ∃ low high, s.get id = ⟨scale, some (low, high)⟩ ∧ s.LeafAt low lowScale ∧
    s.LeafAt high highScale

theorem PairAt.scaled (pair : s.PairAt id a b c) : s.negligible a = false := by
  obtain ⟨nonzero, _, _, found, -⟩ := pair
  have scaled := not_negligible_of_not_isZero nonzero
  rwa [found] at scaled

noncomputable def pairFactor (a b : Amplitude ℝ) : Amplitude ℝ :=
  .ofPolar (Real.sqrt (a.normSq + b.normSq)) a.angle

theorem normSq_pairFactor (a b : Amplitude ℝ) :
    Complex.normSq (pairFactor a b).toComplex =
      Complex.normSq a.toComplex + Complex.normSq b.toComplex := by
  have nonneg : 0 ≤ a.normSq + b.normSq := by
    rw [Amplitude.normSq_eq, Amplitude.normSq_eq]
    exact add_nonneg (Complex.normSq_nonneg _) (Complex.normSq_nonneg _)
  rw [pairFactor, Amplitude.normSq_toComplex_ofPolar, Real.mul_self_sqrt nonneg,
    Amplitude.normSq_eq, Amplitude.normSq_eq]

theorem toComplex_pairFactor {x : ℝ} (nonneg : 0 ≤ x) (b : Amplitude ℝ) :
    (pairFactor (.ofReal x) b).toComplex = (Real.sqrt (x * x + b.normSq) : ℂ) := by
  have angle : (Amplitude.ofReal x).angle = 0 := Complex.arg_ofReal_of_nonneg nonneg
  have modulus : (Amplitude.ofReal x).normSq = x * x := by simp [Amplitude.normSq, Amplitude.ofReal]
  rw [pairFactor, angle, modulus, Amplitude.toComplex_ofPolar]
  simp

/-- A join of two leaves divides both scales by their common factor. -/
theorem LeafAt.join_eq (lowLeaf : s.LeafAt low a) (highLeaf : s.LeafAt high b)
    (lowScaled : s.negligible a = false) (highScaled : s.negligible b = false)
    (scaled : s.negligible (c * pairFactor a b) = false) :
    let first := s.divideScale low a (pairFactor a b)
    let second := first.2.divideScale high b (pairFactor a b)
    s.join c low high = second.2.push ⟨c * pairFactor a b, some (first.1, second.1)⟩ := by
  intro first second
  have total : ¬Scalar.le (a.normSq + b.normSq) s.threshold = true := by
    rw [Scalar.le_iff, not_le, Amplitude.normSq_eq, Amplitude.normSq_eq]
    exact (negligible_eq_false.mp lowScaled).trans_le
      (le_add_of_nonneg_right (Complex.normSq_nonneg _))
  unfold NodeStore.join
  rw [lowLeaf.scale_eq lowScaled, highLeaf.scale_eq highScaled]
  dsimp only
  rw [if_neg total, lowScaled, if_neg Bool.false_ne_true]
  exact if_neg fun found => Bool.false_ne_true (scaled.symm.trans found)

theorem LeafAt.join (lowLeaf : s.LeafAt low a) (highLeaf : s.LeafAt high b) (ordered : s.Ordered)
    (lowScaled : s.negligible a = false) (highScaled : s.negligible b = false)
    (scaled : s.negligible (c * pairFactor a b) = false) :
    let result := s.join c low high
    result.2.Ordered ∧ result.2.threshold = s.threshold ∧
      result.2.PairAt result.1 (c * pairFactor a b) (a / pairFactor a b) (b / pairFactor a b) := by
  have first := lowLeaf.divideScale ordered lowScaled (pairFactor a b)
  have second := (highLeaf.grow first.growth).divideScale first.ordered
    (by rw [← highScaled, negligible, negligible, first.growth.threshold_eq]) (pairFactor a b)
  have growth := first.growth.trans second.growth
  have lowLeaf' := first.leaf.grow second.growth
  dsimp only
  rw [lowLeaf.join_eq highLeaf lowScaled highScaled scaled]
  generalize s.divideScale low a (pairFactor a b) = one at *
  generalize one.2.divideScale high b (pairFactor a b) = two at *
  have pushed := extends_push two.2 ⟨c * pairFactor a b, some (one.1, two.1)⟩
  refine ⟨second.ordered.push ?_, growth.threshold_eq, ?_,
    one.1, two.1, get_push .., lowLeaf'.grow pushed, second.leaf.grow pushed⟩
  · rintro _ _ ⟨⟩
    exact ⟨lowLeaf'.stored, second.leaf.stored⟩
  · rw [fst_push, isZero_push second.ordered.nonempty, ← scaled, negligible, negligible,
      growth.threshold_eq]

end NodeStore

namespace Tree

/-- The trees that operations lead to if scales up to a threshold count as zero; insertion,
splitting and restriction stay within the width of the tree. -/
inductive MadeAt (threshold : ℝ) : Tree ℝ → Prop where
  | basis (width : ℕ) (index : BasisIndex) (phase : Amplitude ℝ) :
      MadeAt threshold (basis width index phase threshold)
  | ofAmplitudes (width : ℕ) (source : BasisIndex → Amplitude ℝ) :
      MadeAt threshold (ofAmplitudes width threshold source)
  | apply {t : Tree ℝ} (made : MadeAt threshold t) (gate : Gate ℝ) (controls : List Control)
      (target : ℕ) : MadeAt threshold (t.apply gate controls target)
  | insert {t other : Tree ℝ} (made : MadeAt threshold t) (otherMade : MadeAt threshold other)
      {start : ℕ} (le : start ≤ t.width) : MadeAt threshold (t.insert other start)
  | split {t : Tree ℝ} (made : MadeAt threshold t) {start length : ℕ}
      (le : start + length ≤ t.width) : MadeAt threshold (t.split start length).2
  | part {t part : Tree ℝ} (made : MadeAt threshold t) {start length : ℕ}
      (le : start + length ≤ t.width) (parted : (t.split start length).1 = some part) :
      MadeAt threshold part
  | restrict {t : Tree ℝ} (made : MadeAt threshold t) {start length : ℕ}
      (le : start + length ≤ t.width) (index : BasisIndex) :
      MadeAt threshold (t.restrict start length index).2
  | collapse {t : Tree ℝ} (made : MadeAt threshold t) (qubit : ℕ) (value : Bool) :
      MadeAt threshold (t.collapse qubit value).2
  | normalize {t : Tree ℝ} (made : MadeAt threshold t) (tolerance : ℝ) :
      MadeAt threshold (t.normalize tolerance)
  | canonicalize {t : Tree ℝ} (made : MadeAt threshold t) : MadeAt threshold t.canonicalize
  | reduce {t : Tree ℝ} (made : MadeAt threshold t) : MadeAt threshold t.reduce
  | reduceIfBloated {t : Tree ℝ} (made : MadeAt threshold t) : MadeAt threshold t.reduceIfBloated

/-- The operations at the threshold zero are those of exact trees. -/
theorem MadeAt.made {t : Tree ℝ} (made : MadeAt 0 t) : Made t := by
  induction made with
  | basis width index phase => exact .basis width index phase
  | ofAmplitudes width source => exact .ofAmplitudes width source
  | apply _ gate controls target ih => exact ih.apply gate controls target
  | insert _ _ le ih otherIh => exact ih.insert otherIh le
  | split _ le ih => exact ih.split le
  | part _ le parted ih => exact ih.part le parted
  | restrict _ le index ih => exact ih.restrict le index
  | collapse _ qubit value ih => exact ih.collapse qubit value
  | normalize _ tolerance ih => exact ih.normalize tolerance
  | canonicalize _ ih => exact ih.canonicalize
  | reduce _ ih => exact ih.reduce
  | reduceIfBloated _ ih => exact ih.reduceIfBloated

/-! ## One qubit -/

noncomputable def oneQubit (threshold : ℝ) (phase a b : Amplitude ℝ) : Tree ℝ :=
  (basis 1 0 phase threshold).apply ⟨a, 0, b, 0⟩ [] 0

theorem madeAt_oneQubit (threshold : ℝ) (phase a b : Amplitude ℝ) :
    MadeAt threshold (oneQubit threshold phase a b) :=
  (MadeAt.basis 1 0 phase).apply _ [] 0

variable {threshold : ℝ} {phase a b : Amplitude ℝ}

theorem leafAt_basis : (basis 1 0 phase threshold).store.LeafAt 1 1 where
  stored := (by decide : 1 < 3)
  isZero_eq := rfl
  get_eq _ := rfl

theorem ordered_basis : (basis 1 0 phase threshold).store.Ordered where
  nonempty := Nat.succ_pos 2
  branches_lt {id low high} branches := by
    match id, branches with
    | 2, branches =>
        cases branches
        exact ⟨Nat.one_lt_two, Nat.two_pos⟩
    | id + 3, branches =>
        rw [NodeStore.get_of_size_le (s := (basis 1 0 phase threshold).store)
          (Nat.le_add_left 3 id)] at branches
        cases branches

/-- The root of a tree over one qubit is the canonical node over its two leaves. -/
theorem oneQubit_root (small : threshold < 1)
    (phaseScaled : phase.negligible threshold = false) (lowScaled : a.negligible threshold = false)
    (highScaled : b.negligible threshold = false)
    (scaled : (phase * NodeStore.pairFactor a b).negligible threshold = false) :
    let t := oneQubit threshold phase a b
    let factor := NodeStore.pairFactor a b
    t.store.Ordered ∧ t.threshold = threshold ∧
      t.store.PairAt t.root (phase * factor) (a / factor) (b / factor) := by
  have one : (basis 1 0 phase threshold).store.negligible 1 = false := by
    rw [NodeStore.negligible_eq_false, Amplitude.toComplex_one, Complex.normSq_one]
    exact small
  have first := leafAt_basis.rescale ordered_basis one a
  have one' : ((basis 1 0 phase threshold).store.rescale 1 a).2.negligible 1 = false := by
    rw [← one, NodeStore.negligible, NodeStore.negligible, first.growth.threshold_eq]
  have second := (leafAt_basis.grow first.growth).rescale first.ordered one' b
  have thresholds := second.growth.threshold_eq.trans first.growth.threshold_eq
  have kept {c : Amplitude ℝ} (scaled : c.negligible threshold = false) :
      (((basis 1 0 phase threshold).store.rescale 1 a).2.rescale 1 b).2.negligible c = false := by
    rw [← scaled, NodeStore.negligible, thresholds]
    rfl
  have joined := (first.leaf.grow second.growth).join second.leaf second.ordered (kept lowScaled)
    (kept highScaled) (kept scaled)
  have nonzero : (basis 1 0 phase threshold).store.isZero (basis 1 0 phase threshold).root = false :=
    phaseScaled
  have visited : (basis 1 0 phase threshold).applyVisit ⟨a, 0, b, 0⟩ [] [] 0 0
      (basis 1 0 phase threshold).root = .answer fun s =>
        let mixed := s.mix ⟨a, 0, b, 0⟩ 0 1 [] 1 0
        mixed.2.join phase mixed.1.1 mixed.1.2 := rfl
  have walked := NodeStore.walkFrom_of_answer _ (0 : NodeId) nonzero visited
    (basis 1 0 phase threshold).store
  dsimp only at walked
  rw [leafAt_basis.mix one 1] at walked
  have applied : oneQubit threshold phase a b = _ := congrArg
    (fun result => { basis 1 0 phase threshold with store := result.2, root := result.1 }) walked
  obtain ⟨ordered, unchanged, pair⟩ := joined
  rw [applied]
  exact ⟨ordered, unchanged.trans thresholds, pair⟩

/-- If the weights add up to one and the first amplitude is a non-negative real, the leaves have the
amplitudes as scales. -/
theorem oneQubit_root_of_unit {x : ℝ} (nonneg : 0 ≤ x) (unit : x * x + b.normSq = 1)
    (small : threshold < 1) (phaseScaled : phase.negligible threshold = false)
    (lowScaled : (Amplitude.ofReal x).negligible threshold = false)
    (highScaled : b.negligible threshold = false) :
    let t := oneQubit threshold phase (.ofReal x) b
    t.store.Ordered ∧ t.threshold = threshold ∧ t.store.PairAt t.root phase (.ofReal x) b := by
  have factor : NodeStore.pairFactor (.ofReal x) b = 1 := by
    rw [← Amplitude.toComplex_inj, NodeStore.toComplex_pairFactor nonneg, unit, Real.sqrt_one,
      Complex.ofReal_one, Amplitude.toComplex_one]
  have undivided (a : Amplitude ℝ) : a / 1 = a := by
    rw [← Amplitude.toComplex_inj, Amplitude.toComplex_div, Amplitude.toComplex_one, div_one]
  have whole (a : Amplitude ℝ) : a * 1 = a := by
    rw [← Amplitude.toComplex_inj, Amplitude.toComplex_mul, Amplitude.toComplex_one, mul_one]
  obtain ⟨ordered, thresholds, pair⟩ :=
    oneQubit_root small phaseScaled lowScaled highScaled (by rwa [factor, whole])
  rw [factor, undivided, undivided, whole] at pair
  exact ⟨ordered, thresholds, pair⟩

end Tree

end AmplitudeTree
