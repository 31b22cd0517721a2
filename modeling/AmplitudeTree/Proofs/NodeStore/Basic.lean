import AmplitudeTree.NodeStore.Basic
import AmplitudeTree.Proofs.Unfolding.Canonical

/-!
# The unfoldings of a node store

A store only grows, and a node's branches are stored before it.  So a node keeps its unfolding as
the store grows.  In an exact store nothing but zero is negligible.  Every operation on an exact
store appends nodes and returns one whose unfolding is determined by the unfoldings it was given.
-/

namespace AmplitudeTree.NodeStore

/-! ## Growth -/

section Growth

variable {R : Type} {s t u : NodeStore R}

@[simp]
theorem fst_push (s : NodeStore R) (node : Node R) : (s.push node).1 = s.size := rfl

@[simp]
theorem size_push (s : NodeStore R) (node : Node R) : (s.push node).2.size = s.size + 1 :=
  Array.size_push ..

variable [Scalar R]

/-- Every node is stored after its branches. -/
structure Ordered (s : NodeStore R) : Prop where
  nonempty : 0 < s.size
  branches_lt : ∀ {id low high}, (s.get id).branches = some (low, high) → low < id ∧ high < id

/-- The store `t` holds all nodes of `s` at their positions. -/
structure Extends (s t : NodeStore R) : Prop where
  threshold_eq : t.threshold = s.threshold
  size_le : s.size ≤ t.size
  get_eq : ∀ id, id < s.size → t.get id = s.get id

theorem Extends.refl (s : NodeStore R) : s.Extends s :=
  ⟨rfl, le_refl _, fun _ _ => rfl⟩

theorem Extends.trans (first : s.Extends t) (second : t.Extends u) : s.Extends u where
  threshold_eq := second.threshold_eq.trans first.threshold_eq
  size_le := first.size_le.trans second.size_le
  get_eq id stored := by
    rw [second.get_eq id (stored.trans_le first.size_le), first.get_eq id stored]

theorem get_of_size_le {id : NodeId} (outside : s.size ≤ id) : s.get id = Node.leaf 0 := by
  unfold get
  rw [Array.getElem?_eq_none outside]
  rfl

theorem get_empty (threshold : R) (id : NodeId) : (empty threshold).get id = Node.leaf 0 := by
  cases id with
  | zero => rfl
  | succ id => exact get_of_size_le (Nat.le_add_left 1 id)

@[simp]
theorem get_push (s : NodeStore R) (node : Node R) : (s.push node).2.get s.size = node := by
  simp [get, push, size]

theorem extends_push (s : NodeStore R) (node : Node R) : s.Extends (s.push node).2 where
  threshold_eq := rfl
  size_le := by simp
  get_eq id stored := by
    have stored : id < s.nodes.size := stored
    simp [get, push, Array.getElem?_push_lt, stored]

/-- An appended node counts as zero just in case its scale is negligible. -/
theorem isZero_push (nonempty : 0 < s.size) (node : Node R) :
    (s.push node).2.isZero s.size = s.negligible node.scale := by
  rw [isZero, get_push, beq_eq_false_iff_ne.mpr nonempty.ne', Bool.false_or]
  rfl

theorem extends_rescale (s : NodeStore R) (id : NodeId) (c : Amplitude R) :
    s.Extends (s.rescale id c).2 := by
  unfold rescale
  split
  · exact .refl s
  · dsimp only
    split
    · exact .refl s
    · exact extends_push s _

theorem extends_divideScale (s : NodeStore R) (id : NodeId) (scale factor : Amplitude R) :
    s.Extends (s.divideScale id scale factor).2 := by
  unfold divideScale
  split
  · exact .refl s
  · exact extends_rescale s id _

theorem Ordered.push (ordered : s.Ordered) {node : Node R}
    (below : ∀ low high, node.branches = some (low, high) → low < s.size ∧ high < s.size) :
    (s.push node).2.Ordered where
  nonempty := by simp
  branches_lt {id low high} found := by
    rcases lt_trichotomy id s.size with stored | rfl | outside
    · rw [(extends_push s node).get_eq id stored] at found
      exact ordered.branches_lt found
    · rw [get_push] at found
      exact below low high found
    · rw [get_of_size_le (by rw [size_push]; exact outside)] at found
      cases found

theorem get_eq_leaf {id : NodeId} (leaf : (s.get id).branches = none) :
    s.get id = .leaf (s.get id).scale := by
  rw [Node.leaf, ← leaf]

theorem children_eq_none {id : NodeId} (leaf : (s.get id).branches = none) :
    s.children id = none := by
  unfold children
  rw [leaf]

theorem Ordered.children_eq (ordered : s.Ordered) {id low high : NodeId}
    (found : (s.get id).branches = some (low, high)) :
    s.children id = some ⟨low, high, (ordered.branches_lt found).1,
      (ordered.branches_lt found).2⟩ := by
  unfold children
  rw [found]
  exact dif_pos (ordered.branches_lt found)

theorem Extends.isZero_eq (growth : s.Extends t) {id : NodeId} (stored : id < s.size) :
    t.isZero id = s.isZero id := by
  unfold isZero negligible
  rw [growth.get_eq id stored, growth.threshold_eq]

theorem Extends.children_eq (growth : s.Extends t) {id : NodeId} (stored : id < s.size) :
    t.children id = s.children id := by
  unfold children
  rw [growth.get_eq id stored]

theorem lt_size_of_not_isZero {id : NodeId} (null : s.negligible 0 = true)
    (found : s.isZero id = false) : id < s.size := by
  by_contra outside
  rw [isZero, get_of_size_le (not_lt.mp outside)] at found
  simp [Node.leaf, null] at found

theorem not_negligible_of_not_isZero {id : NodeId} (nonzero : s.isZero id = false) :
    s.negligible (s.get id).scale = false :=
  (Bool.or_eq_false_iff.mp nonzero).2

theorem isZero_eq_false {id : NodeId} (nonzero : id ≠ 0)
    (scaled : s.negligible (s.get id).scale = false) : s.isZero id = false := by
  rw [isZero, scaled, beq_eq_false_iff_ne.mpr nonzero]
  rfl

theorem scale_of_isZero {id : NodeId} (empty : s.isZero id = true) : s.scale id = 0 := if_pos empty

theorem scale_eq_of_not_isZero {id : NodeId} (nonzero : s.isZero id = false) :
    s.scale id = (s.get id).scale :=
  if_neg (by simp [nonzero])

end Growth

/-! ## Unfoldings -/

variable {s t : NodeStore ℝ} {id low high : NodeId}

theorem negligible_eq_false {a : Amplitude ℝ} :
    s.negligible a = false ↔ s.threshold < Complex.normSq a.toComplex :=
  Amplitude.negligible_eq_false s.threshold a

noncomputable def unfold (s : NodeStore ℝ) (id : NodeId) : Unfolding :=
  if s.isZero id then .zero
  else
    match s.children id with
    | none => .leaf (s.get id).scale.toComplex
    | some ⟨low, high, _, _⟩ =>
        .fork (s.get id).scale.toComplex (unfold s low) (unfold s high)
termination_by id

theorem unfold_of_isZero (empty : s.isZero id = true) : s.unfold id = .zero := by
  rw [unfold, if_pos empty]

@[simp]
theorem unfold_zero (s : NodeStore ℝ) : s.unfold 0 = .zero :=
  unfold_of_isZero rfl

theorem unfold_of_leaf (nonzero : s.isZero id = false) (leaf : (s.get id).branches = none) :
    s.unfold id = .leaf (s.get id).scale.toComplex := by
  rw [unfold, if_neg (by simp [nonzero]), children_eq_none leaf]

theorem Ordered.unfold_of_branches (ordered : s.Ordered) (nonzero : s.isZero id = false)
    (found : (s.get id).branches = some (low, high)) :
    s.unfold id = .fork (s.get id).scale.toComplex (s.unfold low) (s.unfold high) := by
  rw [unfold, if_neg (by simp [nonzero]), ordered.children_eq found]

@[simp]
theorem unfold_eq_zero : s.unfold id = .zero ↔ s.isZero id = true := by
  constructor
  · intro found
    by_contra nonzero
    rw [unfold, if_neg nonzero] at found
    split at found <;> cases found
  · exact unfold_of_isZero

theorem unfold_ne_zero : s.unfold id ≠ .zero ↔ s.isZero id = false := by
  rw [ne_eq, unfold_eq_zero, Bool.not_eq_true]

theorem Ordered.of_unfold_leaf (ordered : s.Ordered) {c : ℂ} (found : s.unfold id = .leaf c) :
    s.isZero id = false ∧ s.get id = .leaf (.ofComplex c) := by
  have nonzero : s.isZero id = false := by
    rw [← unfold_ne_zero, found]
    exact fun impossible => by cases impossible
  refine ⟨nonzero, ?_⟩
  cases branches : (s.get id).branches with
  | none =>
      rw [unfold_of_leaf nonzero branches] at found
      cases found
      rw [Amplitude.ofComplex_toComplex, Node.leaf, ← branches]
  | some pair =>
      obtain ⟨low, high⟩ := pair
      rw [ordered.unfold_of_branches nonzero branches] at found
      cases found

theorem Ordered.of_unfold_fork (ordered : s.Ordered) {c : ℂ} {u v : Unfolding}
    (found : s.unfold id = .fork c u v) :
    s.isZero id = false ∧ ∃ low high, s.get id = ⟨.ofComplex c, some (low, high)⟩ ∧
      s.unfold low = u ∧ s.unfold high = v := by
  have nonzero : s.isZero id = false := by
    rw [← unfold_ne_zero, found]
    exact fun impossible => by cases impossible
  refine ⟨nonzero, ?_⟩
  cases branches : (s.get id).branches with
  | none =>
      rw [unfold_of_leaf nonzero branches] at found
      cases found
  | some pair =>
      obtain ⟨low, high⟩ := pair
      rw [ordered.unfold_of_branches nonzero branches] at found
      cases found
      exact ⟨low, high, by rw [Amplitude.ofComplex_toComplex, ← branches], rfl, rfl⟩

theorem Extends.unfold_eq (growth : s.Extends t) (stored : id < s.size) :
    t.unfold id = s.unfold id := by
  induction id using Nat.strong_induction_on with
  | _ id ih =>
      rw [unfold, unfold, growth.isZero_eq stored, growth.children_eq stored,
        growth.get_eq id stored]
      split
      · rfl
      · split
        · rfl
        · next low high lowLt highLt _ =>
            rw [ih low lowLt (lowLt.trans stored), ih high highLt (highLt.trans stored)]

/-! ## Exact stores -/

/-- An ordered store in which nothing but zero is negligible. -/
structure Exact (s : NodeStore ℝ) : Prop extends s.Ordered where
  threshold_eq : s.threshold = 0

theorem Exact.negligible_iff (exact : s.Exact) (a : Amplitude ℝ) :
    s.negligible a = true ↔ a.toComplex = 0 := by
  rw [negligible, exact.threshold_eq, Amplitude.negligible_zero_iff]

theorem Exact.negligible_eq_false (exact : s.Exact) {a : Amplitude ℝ} :
    s.negligible a = false ↔ a.toComplex ≠ 0 := by
  rw [← Bool.not_eq_true, exact.negligible_iff]

theorem Exact.isZero_iff (exact : s.Exact) :
    s.isZero id = true ↔ id = 0 ∨ (s.get id).scale.toComplex = 0 := by
  rw [isZero, Bool.or_eq_true, exact.negligible_iff, beq_iff_eq]

theorem toComplex_scale (s : NodeStore ℝ) (id : NodeId) :
    (s.scale id).toComplex = (s.unfold id).scale := by
  rw [scale, unfold]
  split
  · rfl
  · split <;> rfl

theorem scale_of_not_isZero (nonzero : s.isZero id = false) :
    (s.get id).scale.toComplex = (s.unfold id).scale := by
  rw [← toComplex_scale, scale, if_neg (by simp [nonzero])]

theorem Exact.lt_size (exact : s.Exact) (nonzero : s.isZero id = false) : id < s.size :=
  lt_size_of_not_isZero ((exact.negligible_iff 0).mpr rfl) nonzero

theorem Exact.scale_ne_zero (exact : s.Exact) (nonzero : s.isZero id = false) :
    (s.get id).scale.toComplex ≠ 0 := fun found => by
  rw [exact.isZero_iff.mpr (.inr found)] at nonzero
  cases nonzero

theorem Exact.empty : (NodeStore.empty (0 : ℝ)).Exact where
  nonempty := Nat.one_pos
  branches_lt found := by
    rw [get_empty] at found
    cases found
  threshold_eq := rfl

/-- An operation that extends an exact store to another one and returns a node whose
unfolding has a property. -/
structure Yields (s : NodeStore ℝ) (result : NodeId × NodeStore ℝ) (holds : Unfolding → Prop) :
    Prop where
  growth : s.Extends result.2
  exact : result.2.Exact
  stored : result.1 < result.2.size
  clean : result.2.isZero result.1 = true → result.1 = 0
  holds : holds (result.2.unfold result.1)

namespace Yields

variable {result : NodeId × NodeStore ℝ} {p q : Unfolding → Prop}

theorem mono (yields : s.Yields result p) (implies : ∀ u, p u → q u) : s.Yields result q :=
  ⟨yields.growth, yields.exact, yields.stored, yields.clean, implies _ yields.holds⟩

/-- What is appended later extends the first store as well. -/
theorem after (yields : t.Yields result p) (growth : s.Extends t) : s.Yields result p :=
  ⟨growth.trans yields.growth, yields.exact, yields.stored, yields.clean, yields.holds⟩

/-- An operation may return a node that is stored already. -/
theorem of_stored (exact : s.Exact) (nonzero : s.isZero id = false) (holds : p (s.unfold id)) :
    s.Yields (id, s) p :=
  ⟨.refl s, exact, exact.lt_size nonzero, fun empty => absurd empty (by simp [nonzero]), holds⟩

theorem of_zero (exact : s.Exact) (holds : p .zero) : s.Yields (0, s) p :=
  ⟨.refl s, exact, exact.nonempty, fun _ => rfl, by rwa [unfold_zero]⟩

theorem unfold_eq (yields : s.Yields result p) (stored : id < s.size) :
    result.2.unfold id = s.unfold id :=
  yields.growth.unfold_eq stored

theorem lt_size (yields : s.Yields result p) (stored : id < s.size) : id < result.2.size :=
  stored.trans_le yields.growth.size_le

end Yields

structure YieldsPair (s : NodeStore ℝ) (result : (NodeId × NodeId) × NodeStore ℝ)
    (holds : Unfolding → Unfolding → Prop) : Prop where
  growth : s.Extends result.2
  exact : result.2.Exact
  first_stored : result.1.1 < result.2.size
  second_stored : result.1.2 < result.2.size
  holds : holds (result.2.unfold result.1.1) (result.2.unfold result.1.2)

namespace YieldsPair

variable {result : (NodeId × NodeId) × NodeStore ℝ} {p q : Unfolding → Unfolding → Prop}

theorem mono (yields : s.YieldsPair result p) (implies : ∀ u v, p u v → q u v) :
    s.YieldsPair result q :=
  ⟨yields.growth, yields.exact, yields.first_stored, yields.second_stored,
    implies _ _ yields.holds⟩

theorem after (yields : t.YieldsPair result p) (growth : s.Extends t) : s.YieldsPair result p :=
  ⟨growth.trans yields.growth, yields.exact, yields.first_stored, yields.second_stored,
    yields.holds⟩

theorem of_stored (exact : s.Exact) (lowStored : low < s.size) (highStored : high < s.size)
    (holds : p (s.unfold low) (s.unfold high)) : s.YieldsPair ((low, high), s) p :=
  ⟨.refl s, exact, lowStored, highStored, holds⟩

theorem of_zero (exact : s.Exact) (holds : p .zero .zero) : s.YieldsPair ((0, 0), s) p :=
  of_stored exact exact.nonempty exact.nonempty (by rwa [unfold_zero])

theorem unfold_eq (yields : s.YieldsPair result p) (stored : id < s.size) :
    result.2.unfold id = s.unfold id :=
  yields.growth.unfold_eq stored

theorem lt_size (yields : s.YieldsPair result p) (stored : id < s.size) : id < result.2.size :=
  stored.trans_le yields.growth.size_le

end YieldsPair

/-! ## Operations -/

theorem Exact.push (exact : s.Exact) {node : Node ℝ}
    (below : ∀ low high, node.branches = some (low, high) → low < s.size ∧ high < s.size) :
    (s.push node).2.Exact where
  toOrdered := exact.toOrdered.push below
  threshold_eq := exact.threshold_eq

theorem Exact.isZero_push (exact : s.Exact) {node : Node ℝ}
    (below : ∀ low high, node.branches = some (low, high) → low < s.size ∧ high < s.size) :
    (s.push node).2.isZero s.size = true ↔ node.scale.toComplex = 0 := by
  rw [(exact.push below).isZero_iff, get_push]
  exact or_iff_right exact.nonempty.ne'

theorem Exact.push_leaf (exact : s.Exact) {c : Amplitude ℝ} (scaled : c.toComplex ≠ 0) :
    s.Yields (s.push (.leaf c)) (· = .leaf c.toComplex) := by
  have below : ∀ low high, (Node.leaf c).branches = some (low, high) →
      low < s.size ∧ high < s.size := fun low high found => by cases found
  have nonzero : (s.push (.leaf c)).2.isZero s.size = false := by
    rw [← Bool.not_eq_true, exact.isZero_push below]
    exact scaled
  refine ⟨extends_push s _, exact.push below, by simp,
    fun empty => absurd empty (Bool.not_eq_true _ ▸ nonzero), ?_⟩
  rw [fst_push, unfold_of_leaf nonzero (by rw [get_push]; rfl), get_push]
  rfl

theorem Exact.push_fork (exact : s.Exact) {c : Amplitude ℝ} (scaled : c.toComplex ≠ 0)
    (lowStored : low < s.size) (highStored : high < s.size) :
    s.Yields (s.push ⟨c, some (low, high)⟩)
      (· = .fork c.toComplex (s.unfold low) (s.unfold high)) := by
  have below : ∀ low' high', some (low, high) = some (low', high') →
      low' < s.size ∧ high' < s.size := by
    rintro _ _ ⟨⟩
    exact ⟨lowStored, highStored⟩
  have growth := extends_push s ⟨c, some (low, high)⟩
  have grown : (s.push ⟨c, some (low, high)⟩).2.Exact := exact.push below
  have nonzero : (s.push ⟨c, some (low, high)⟩).2.isZero s.size = false := by
    rw [← Bool.not_eq_true, exact.isZero_push below]
    exact scaled
  refine ⟨growth, grown, by simp, fun empty => absurd empty (Bool.not_eq_true _ ▸ nonzero), ?_⟩
  rw [fst_push, grown.unfold_of_branches nonzero (by rw [get_push]), get_push,
    growth.unfold_eq lowStored, growth.unfold_eq highStored]

theorem Exact.push_rescaled (exact : s.Exact) (id : NodeId) {c : Amplitude ℝ} (scaled : c.toComplex ≠ 0)
    (nonzero : s.isZero id = false) :
    s.Yields (s.push ⟨c, (s.get id).branches⟩) (· = (s.unfold id).withScale c.toComplex) := by
  have stored := exact.lt_size nonzero
  cases branches : (s.get id).branches with
  | none =>
      refine (exact.push_leaf scaled).mono fun u found => ?_
      rw [found, unfold_of_leaf nonzero branches]
      rfl
  | some pair =>
      obtain ⟨low, high⟩ := pair
      obtain ⟨lowLt, highLt⟩ := exact.branches_lt branches
      refine (exact.push_fork scaled (lowLt.trans stored) (highLt.trans stored)).mono
        fun u found => ?_
      rw [found, exact.unfold_of_branches nonzero branches]
      rfl

theorem Exact.rescale (exact : s.Exact) (id : NodeId) (c : Amplitude ℝ)
    (empty : s.isZero id = true → c.toComplex = 0) :
    s.Yields (s.rescale id c) (· = (s.unfold id).rescale c.toComplex) := by
  unfold NodeStore.rescale
  by_cases zero : c.toComplex = 0
  · rw [if_pos ((exact.negligible_iff c).mpr zero)]
    refine .of_zero exact ?_
    rw [zero, Unfolding.rescale_zero_left]
  · rw [if_neg (by rw [exact.negligible_iff]; exact zero), Unfolding.rescale_of_ne_zero zero]
    have nonzero : s.isZero id = false := by
      rw [← Bool.not_eq_true]
      exact fun found => zero (empty found)
    dsimp only
    split
    · next same =>
        have scales := (Amplitude.same_iff _ _).mp same
        refine .of_stored exact nonzero ?_
        rw [← scales, scale_of_not_isZero nonzero, Unfolding.withScale_scale]
    · exact exact.push_rescaled id zero nonzero

theorem Exact.divideScale (exact : s.Exact) (id : NodeId) {scale factor : Amplitude ℝ}
    (scales : scale.toComplex = (s.unfold id).scale) (nonzero : factor.toComplex ≠ 0) :
    s.Yields (s.divideScale id scale factor)
      (· = (s.unfold id).withScale ((s.unfold id).scale / factor.toComplex)) := by
  unfold NodeStore.divideScale
  by_cases empty : s.isZero id = true
  · rw [unfold_of_isZero empty] at scales ⊢
    rw [if_pos ((exact.negligible_iff scale).mpr scales)]
    exact .of_zero exact rfl
  · have scaled : scale.toComplex ≠ 0 := by
      rw [scales, ← scale_of_not_isZero (Bool.not_eq_true _ ▸ empty)]
      exact fun found => empty (exact.isZero_iff.mpr (.inr found))
    rw [if_neg (by rw [exact.negligible_iff]; exact scaled)]
    refine (exact.rescale id _ fun found => absurd found empty).mono fun u result => ?_
    rw [result, Amplitude.toComplex_div, ← scales,
      Unfolding.rescale_of_ne_zero (div_ne_zero scaled nonzero)]

theorem Exact.le_total_iff (exact : s.Exact) (low high : NodeId) :
    Scalar.le ((s.scale low).normSq + (s.scale high).normSq) s.threshold = true ↔
      (s.unfold low).scale = 0 ∧ (s.unfold high).scale = 0 := by
  rw [Scalar.le_iff, exact.threshold_eq, Amplitude.normSq_eq, Amplitude.normSq_eq,
    toComplex_scale, toComplex_scale, ← Complex.normSq_eq_zero, ← Complex.normSq_eq_zero]
  have lowNonneg := Complex.normSq_nonneg (s.unfold low).scale
  have highNonneg := Complex.normSq_nonneg (s.unfold high).scale
  constructor
  · intro total
    constructor <;> linarith
  · rintro ⟨lowZero, highZero⟩
    rw [lowZero, highZero, add_zero]

/-- The factor that moves out of two branches into the scale above them. -/
theorem Exact.toComplex_commonFactor (exact : s.Exact) (low high : NodeId)
    (nonzero : ¬((s.unfold low).scale = 0 ∧ (s.unfold high).scale = 0)) :
    (Amplitude.ofPolar (Scalar.sqrt ((s.scale low).normSq + (s.scale high).normSq))
      (if s.negligible (s.scale low) then s.scale high else s.scale low).angle).toComplex =
      Unfolding.commonFactor (s.unfold low) (s.unfold high) := by
  have leading :
      (if s.negligible (s.scale low) then s.scale high else s.scale low).toComplex =
        if (s.unfold low).scale = 0 then (s.unfold high).scale else (s.unfold low).scale := by
    by_cases empty : (s.unfold low).scale = 0
    · rw [if_pos empty, if_pos (by rwa [exact.negligible_iff, toComplex_scale]), toComplex_scale]
    · rw [if_neg empty, if_neg (by rwa [exact.negligible_iff, toComplex_scale]), toComplex_scale]
  have direction :
      (if (s.unfold low).scale = 0 then (s.unfold high).scale else (s.unfold low).scale) ≠ 0 := by
    split
    · next empty => exact fun found => nonzero ⟨empty, found⟩
    · assumption
  rw [Amplitude.toComplex_ofPolar, Amplitude.angle_eq, leading,
    Amplitude.exp_arg_mul_I direction, Amplitude.normSq_eq, Amplitude.normSq_eq, toComplex_scale,
    toComplex_scale, Scalar.sqrt_eq]
  rfl

theorem Exact.join (exact : s.Exact) (c : Amplitude ℝ) (low : NodeId) (highStored : high < s.size) :
    s.Yields (s.join c low high)
      (· = Unfolding.join c.toComplex (s.unfold low) (s.unfold high)) := by
  unfold NodeStore.join Unfolding.join
  dsimp only
  by_cases empty : (s.unfold low).scale = 0 ∧ (s.unfold high).scale = 0
  · rw [if_pos ((exact.le_total_iff low high).mpr empty), if_pos (.inr empty)]
    exact .of_zero exact rfl
  · rw [if_neg (by rw [exact.le_total_iff]; exact empty)]
    have factor := exact.toComplex_commonFactor low high empty
    have factorNonzero := Unfolding.commonFactor_ne_zero empty
    rw [← factor] at factorNonzero ⊢
    by_cases zero : c.toComplex = 0
    · rw [if_pos (by rw [exact.negligible_iff, Amplitude.toComplex_mul, zero, zero_mul]),
        if_pos (.inl zero)]
      exact .of_zero exact rfl
    · have scaled := mul_ne_zero zero factorNonzero
      rw [← Amplitude.toComplex_mul] at scaled ⊢
      rw [if_neg (not_or.mpr ⟨zero, empty⟩), if_neg (by rwa [exact.negligible_iff])]
      have lowDivided := exact.divideScale low (toComplex_scale s low) factorNonzero
      have highDivided := lowDivided.exact.divideScale high
        ((toComplex_scale s high).trans (by rw [lowDivided.unfold_eq highStored])) factorNonzero
      refine ((highDivided.exact.push_fork scaled (highDivided.lt_size lowDivided.stored)
        highDivided.stored).after (lowDivided.growth.trans highDivided.growth)).mono fun u result => ?_
      rw [result, highDivided.unfold_eq lowDivided.stored, lowDivided.holds, highDivided.holds,
        lowDivided.unfold_eq highStored]

theorem Exact.cofactors (exact : s.Exact) (id : NodeId) :
    s.YieldsPair (s.cofactors id) fun low high =>
      low = (s.unfold id).cofactor false ∧ high = (s.unfold id).cofactor true := by
  unfold NodeStore.cofactors
  by_cases empty : s.isZero id = true
  · rw [if_pos empty, unfold_of_isZero empty]
    exact .of_zero exact ⟨rfl, rfl⟩
  · rw [if_neg empty]
    have nonzero : s.isZero id = false := Bool.not_eq_true _ ▸ empty
    dsimp only
    cases branches : (s.get id).branches with
    | none =>
        rw [unfold_of_leaf nonzero branches]
        exact .of_zero exact ⟨rfl, rfl⟩
    | some pair =>
        obtain ⟨low, high⟩ := pair
        obtain ⟨lowLt, highLt⟩ := exact.branches_lt branches
        have highStored := highLt.trans (exact.lt_size nonzero)
        have product (child : NodeId) : ((s.get id).scale * s.scale child).toComplex =
            (s.get id).scale.toComplex * (s.unfold child).scale := by
          rw [Amplitude.toComplex_mul, toComplex_scale]
        have zeroProduct (child : NodeId) (found : s.isZero child = true) :
            ((s.get id).scale * s.scale child).toComplex = 0 := by
          rw [product, unfold_of_isZero found, Unfolding.scale_zero, mul_zero]
        have lowScaled := exact.rescale low _ (zeroProduct low)
        have highScaled := lowScaled.exact.rescale high ((s.get id).scale * s.scale high)
          (by rw [lowScaled.growth.isZero_eq highStored]; exact zeroProduct high)
        refine ⟨lowScaled.growth.trans highScaled.growth, highScaled.exact,
          highScaled.lt_size lowScaled.stored, highScaled.stored, ?_, ?_⟩
        · rw [highScaled.unfold_eq lowScaled.stored, lowScaled.holds, product,
            exact.unfold_of_branches nonzero branches]
          rfl
        · rw [highScaled.holds, lowScaled.unfold_eq highStored, product,
            exact.unfold_of_branches nonzero branches]
          rfl

end AmplitudeTree.NodeStore
