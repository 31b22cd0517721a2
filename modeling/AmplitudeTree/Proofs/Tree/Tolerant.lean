import AmplitudeTree.Proofs.Tree.CanonicalForm

/-!
# The shape of trees with a tolerance

A store may count scales as zero up to some squared modulus.  If that is less than one half, a node
in canonical form keeps a branch that is not zero, since the squared scales of the two add up to one.
So every operation on such a store returns a node over the number of qubits it should have.
-/

namespace AmplitudeTree.NodeStore

variable {s t : NodeStore ℝ} {id low high : NodeId} {levels : ℕ}

/-! ## Tolerant stores -/

/-- An ordered store in which a scale counts as zero up to a squared modulus below one half. -/
structure Tolerant (s : NodeStore ℝ) : Prop extends s.Ordered where
  nonneg : 0 ≤ s.threshold
  lt_half : s.threshold < 1 / 2

theorem Tolerant.negligible_zero (tolerant : s.Tolerant) : s.negligible 0 = true := by
  rw [negligible, Amplitude.negligible_iff, Amplitude.toComplex_zero, Complex.normSq_zero]
  exact tolerant.nonneg

theorem Tolerant.lt_size (tolerant : s.Tolerant) (nonzero : s.isZero id = false) : id < s.size :=
  lt_size_of_not_isZero tolerant.negligible_zero nonzero

theorem Tolerant.ne_zero_of_not_negligible (tolerant : s.Tolerant) {a : Amplitude ℝ}
    (scaled : s.negligible a = false) : a.toComplex ≠ 0 := fun found => by
  rw [← Amplitude.toComplex_zero, Amplitude.toComplex_inj] at found
  rw [found, tolerant.negligible_zero] at scaled
  cases scaled

theorem Tolerant.scale_ne_zero (tolerant : s.Tolerant) (nonzero : s.isZero id = false) :
    (s.get id).scale.toComplex ≠ 0 :=
  tolerant.ne_zero_of_not_negligible (not_negligible_of_not_isZero nonzero)

theorem Tolerant.empty {threshold : ℝ} (nonneg : 0 ≤ threshold) (small : threshold < 1 / 2) :
    (NodeStore.empty threshold).Tolerant where
  nonempty := Nat.one_pos
  branches_lt found := by
    rw [get_empty] at found
    cases found
  nonneg := nonneg
  lt_half := small

theorem Tolerant.push (tolerant : s.Tolerant) {node : Node ℝ}
    (below : ∀ low high, node.branches = some (low, high) → low < s.size ∧ high < s.size) :
    (s.push node).2.Tolerant where
  toOrdered := tolerant.toOrdered.push below
  nonneg := tolerant.nonneg
  lt_half := tolerant.lt_half

theorem Tolerant.isZero_push (tolerant : s.Tolerant) (node : Node ℝ) :
    (s.push node).2.isZero s.size = s.negligible node.scale :=
  NodeStore.isZero_push tolerant.nonempty node

/-! ## Levels -/

theorem Tolerant.over_zero (tolerant : s.Tolerant) (levels : ℕ) : s.Over False levels 0 where
  stored := tolerant.nonempty
  regular := by
    rw [unfold_zero]
    exact Unfolding.regular_zero

inductive Spans (s : NodeStore ℝ) : ℕ → Option (NodeId × NodeId) → Prop where
  | leaf : Spans s 0 none
  | fork {levels : ℕ} {low high : NodeId} (lowOver : s.Over False levels low)
      (highOver : s.Over False levels high)
      (nonzero : s.isZero low = false ∨ s.isZero high = false) :
      Spans s (levels + 1) (some (low, high))

theorem Spans.grow {branches : Option (NodeId × NodeId)} (spans : s.Spans levels branches)
    (growth : s.Extends t) : t.Spans levels branches := by
  cases spans with
  | leaf => exact .leaf
  | fork lowOver highOver nonzero =>
      rw [← growth.isZero_eq lowOver.stored, ← growth.isZero_eq highOver.stored] at nonzero
      exact .fork (lowOver.grow growth) (highOver.grow growth) nonzero

theorem Spans.nonzero (spans : s.Spans levels (some (low, high))) :
    s.isZero low = false ∨ s.isZero high = false := by
  cases spans with
  | fork _ _ nonzero => exact nonzero

theorem Spans.eq_none {branches : Option (NodeId × NodeId)} (spans : s.Spans 0 branches) :
    branches = none := by
  cases spans with
  | leaf => rfl

theorem Spans.exists_branches {branches : Option (NodeId × NodeId)}
    (spans : s.Spans levels branches) (positive : 0 < levels) :
    ∃ low high, branches = some (low, high) ∧ (s.isZero low = false ∨ s.isZero high = false) := by
  cases spans with
  | leaf => cases positive
  | fork _ _ nonzero => exact ⟨_, _, rfl, nonzero⟩

theorem Tolerant.over_of_spans (tolerant : s.Tolerant) (stored : id < s.size)
    (spans : s.Spans levels (s.get id).branches) : s.Over False levels id where
  stored := stored
  regular := by
    cases empty : s.isZero id with
    | true =>
        rw [unfold_of_isZero empty]
        exact Unfolding.regular_zero
    | false =>
        have scaled := tolerant.scale_ne_zero empty
        generalize found : (s.get id).branches = branches at spans
        cases spans with
        | leaf =>
            rw [unfold_of_leaf empty found]
            exact scaled
        | fork lowOver highOver nonzero =>
            rw [tolerant.unfold_of_branches empty found]
            exact ⟨scaled, nonzero.imp unfold_ne_zero.mpr unfold_ne_zero.mpr, lowOver.regular,
              highOver.regular, False.elim⟩

theorem Over.spans (stands : s.Over False levels id) (ordered : s.Ordered)
    (nonzero : s.isZero id = false) : s.Spans levels (s.get id).branches := by
  have onLevel : s.OnLevel False levels 0 id := ⟨Nat.zero_le _, stands.regular⟩
  cases found : (s.get id).branches with
  | none =>
      obtain rfl := onLevel.eq_width nonzero found
      exact .leaf
  | some pair =>
      obtain ⟨low, high⟩ := pair
      obtain ⟨positive, some, lowLevel, highLevel, _⟩ := onLevel.fork ordered nonzero found
      obtain ⟨lowLt, highLt⟩ := ordered.branches_lt found
      obtain ⟨below, rfl⟩ := Nat.exists_eq_succ_of_ne_zero positive.ne'
      exact .fork ⟨lowLt.trans stands.stored, lowLevel.regular⟩
        ⟨highLt.trans stands.stored, highLevel.regular⟩ (some.imp unfold_ne_zero.mp unfold_ne_zero.mp)

/-- A stored node over a number of qubits; without amplitude its branches may
decide more of them. -/
structure Rooted (s : NodeStore ℝ) (levels : ℕ) (id : NodeId) : Prop
    extends s.Over False levels id where
  below : ∀ {low high}, (s.get id).branches = some (low, high) →
    ∃ deeper, levels ≤ deeper + 1 ∧ s.Over False deeper low ∧ s.Over False deeper high

theorem Rooted.grow (rooted : s.Rooted levels id) (growth : s.Extends t) : t.Rooted levels id where
  toOver := rooted.toOver.grow growth
  below found := by
    rw [growth.get_eq id rooted.stored] at found
    obtain ⟨deeper, le, lowOver, highOver⟩ := rooted.below found
    exact ⟨deeper, le, lowOver.grow growth, highOver.grow growth⟩

theorem Over.rooted (stands : s.Over False levels id) (ordered : s.Ordered)
    (nonzero : s.isZero id = false) : s.Rooted levels id where
  toOver := stands
  below found := by
    have spans := stands.spans ordered nonzero
    rw [found] at spans
    cases spans with
    | fork lowOver highOver _ => exact ⟨_, le_refl _, lowOver, highOver⟩

theorem Tolerant.rooted_zero (tolerant : s.Tolerant) (levels : ℕ) : s.Rooted levels 0 :=
  ⟨tolerant.over_zero levels, fun {low _} found =>
    absurd (tolerant.branches_lt found).1 (Nat.not_lt_zero low)⟩

/-! ## Operations -/

/-- An operation on a tolerant store: it extends the store to another one and returns a
node with a property. -/
structure Returns (s : NodeStore ℝ) (holds : NodeStore ℝ → NodeId → Prop)
    (result : NodeId × NodeStore ℝ) : Prop where
  growth : s.Extends result.2
  tolerant : result.2.Tolerant
  holds : holds result.2 result.1

/-- What is appended later extends the first store as well. -/
theorem Returns.after {holds : NodeStore ℝ → NodeId → Prop} {result : NodeId × NodeStore ℝ}
    (returns : t.Returns holds result) (growth : s.Extends t) : s.Returns holds result :=
  ⟨growth.trans returns.growth, returns.tolerant, returns.holds⟩

abbrev Forms (s : NodeStore ℝ) (levels : ℕ) (result : NodeId × NodeStore ℝ) : Prop :=
  s.Returns (fun t id => t.Rooted levels id) result

namespace Forms

variable {result : NodeId × NodeStore ℝ}

theorem of_rooted (tolerant : s.Tolerant) (rooted : s.Rooted levels id) :
    s.Forms levels (id, s) :=
  ⟨.refl s, tolerant, rooted⟩

theorem of_over (tolerant : s.Tolerant) (stands : s.Over False levels id)
    (nonzero : s.isZero id = false) : s.Forms levels (id, s) :=
  of_rooted tolerant (stands.rooted tolerant.toOrdered nonzero)

theorem of_zero (tolerant : s.Tolerant) (levels : ℕ) : s.Forms levels (0, s) :=
  of_rooted tolerant (tolerant.rooted_zero levels)

theorem stands (forms : s.Forms levels result) : result.2.Over False levels result.1 :=
  forms.holds.toOver

end Forms

theorem Tolerant.forms_push (tolerant : s.Tolerant) {node : Node ℝ}
    (spans : s.Spans levels node.branches) : s.Forms levels (s.push node) := by
  have growth := extends_push s node
  have grown : (s.push node).2.Tolerant := tolerant.push fun low high found => by
    rw [found] at spans
    cases spans with
    | fork lowOver highOver _ => exact ⟨lowOver.stored, highOver.stored⟩
  have stored : s.size < (s.push node).2.size := by simp
  have spans := spans.grow growth
  have pushed : ((s.push node).2.get (s.push node).1).branches = node.branches := by
    rw [fst_push, get_push]
  rw [← pushed] at spans
  refine ⟨growth, grown, grown.over_of_spans stored spans, fun found => ?_⟩
  rw [found] at spans
  cases spans with
  | fork lowOver highOver _ => exact ⟨_, le_refl _, lowOver, highOver⟩

/-- A node that gets another scale; a zero node may only get a negligible one. -/
theorem Tolerant.rescale (tolerant : s.Tolerant) (stands : s.Over False levels id)
    (c : Amplitude ℝ) (scaled : s.negligible c = false → s.isZero id = false) :
    s.Forms levels (s.rescale id c) ∧
      (s.negligible c = false → (s.rescale id c).2.isZero (s.rescale id c).1 = false) := by
  unfold NodeStore.rescale
  cases small : s.negligible c with
  | true => exact ⟨.of_zero tolerant levels, nofun⟩
  | false =>
      have nonzero := scaled small
      rw [if_neg Bool.false_ne_true]
      dsimp only
      split
      · exact ⟨.of_over tolerant stands nonzero, fun _ => nonzero⟩
      · exact ⟨tolerant.forms_push (stands.spans tolerant.toOrdered nonzero),
          fun _ => (tolerant.isZero_push _).trans small⟩

theorem Tolerant.isZero_of_scale (tolerant : s.Tolerant)
    (scaled : s.negligible (s.scale id) = false) : s.isZero id = false := by
  by_contra empty
  rw [scale_of_isZero (Bool.not_eq_false _ ▸ empty), tolerant.negligible_zero] at scaled
  cases scaled

/-- The scale of a branch is divided by a factor; it stays if enough of it is left. -/
theorem Tolerant.divideScale (tolerant : s.Tolerant) (stands : s.Over False levels id)
    {scale : Amplitude ℝ} (scaled : s.negligible scale = false → s.isZero id = false)
    (factor : Amplitude ℝ) :
    s.Forms levels (s.divideScale id scale factor) ∧
      (s.negligible scale = false → s.negligible (scale / factor) = false →
        (s.divideScale id scale factor).2.isZero (s.divideScale id scale factor).1 = false) := by
  unfold NodeStore.divideScale
  cases small : s.negligible scale with
  | true => exact ⟨.of_zero tolerant levels, nofun⟩
  | false =>
      rw [if_neg Bool.false_ne_true]
      have rescaled := tolerant.rescale stands (scale / factor) fun _ => scaled small
      exact ⟨rescaled.1, fun _ => rescaled.2⟩

/-- A branch with at least half of the squared modulus of a factor is not zero,
nor is its quotient. -/
theorem Tolerant.half_kept (tolerant : s.Tolerant) {factor : Amplitude ℝ}
    (positive : 0 < Complex.normSq factor.toComplex)
    (half : Complex.normSq factor.toComplex ≤ 2 * Complex.normSq (s.scale id).toComplex) :
    s.negligible (s.scale id) = false ∧ s.negligible (s.scale id / factor) = false := by
  have small := tolerant.lt_half
  have nonzero : s.isZero id = false := by
    by_contra empty
    rw [scale_of_isZero (Bool.not_eq_false _ ▸ empty), Amplitude.toComplex_zero,
      Complex.normSq_zero] at half
    linarith
  constructor
  · rw [NodeStore.scale, if_neg (by simp [nonzero])]
    exact not_negligible_of_not_isZero nonzero
  · rw [negligible_eq_false, Amplitude.toComplex_div, Complex.normSq_div, lt_div_iff₀ positive]
    nlinarith

/-- Of two branches divided by their common modulus the larger one stays. -/
theorem Tolerant.divide_both (tolerant : s.Tolerant) (lowOver : s.Over False levels low)
    (highOver : s.Over False levels high) {factor : Amplitude ℝ}
    (positive : 0 < Complex.normSq factor.toComplex)
    (modulus : Complex.normSq factor.toComplex =
      Complex.normSq (s.scale low).toComplex + Complex.normSq (s.scale high).toComplex)
    (c : Amplitude ℝ) :
    let first := s.divideScale low (s.scale low) factor
    let second := first.2.divideScale high (s.scale high) factor
    s.Forms (levels + 1) (second.2.push ⟨c, some (first.1, second.1)⟩) := by
  intro first second
  obtain ⟨firstForms, firstKept⟩ := tolerant.divideScale lowOver
    (fun scaled => tolerant.isZero_of_scale scaled) factor
  have same (a : Amplitude ℝ) : first.2.negligible a = s.negligible a := by
    rw [negligible, negligible, firstForms.growth.threshold_eq]
  obtain ⟨secondForms, secondKept⟩ := firstForms.tolerant.divideScale
    (highOver.grow firstForms.growth) (fun scaled =>
      (firstForms.growth.isZero_eq highOver.stored).trans
        (tolerant.isZero_of_scale ((same (s.scale high)).symm.trans scaled))) factor
  rw [same, same] at secondKept
  refine (secondForms.tolerant.forms_push (.fork (firstForms.stands.grow secondForms.growth)
    secondForms.stands ?_)).after (firstForms.growth.trans secondForms.growth)
  rcases le_total (Complex.normSq (s.scale high).toComplex)
    (Complex.normSq (s.scale low).toComplex) with lowLarger | highLarger
  · obtain ⟨scaled, divided⟩ := tolerant.half_kept positive
      (show Complex.normSq factor.toComplex ≤ 2 * Complex.normSq (s.scale low).toComplex by
        linarith)
    left
    rw [secondForms.growth.isZero_eq firstForms.stands.stored]
    exact firstKept scaled divided
  · obtain ⟨scaled, divided⟩ := tolerant.half_kept positive
      (show Complex.normSq factor.toComplex ≤ 2 * Complex.normSq (s.scale high).toComplex by
        linarith)
    exact .inr (secondKept scaled divided)

theorem Tolerant.join (tolerant : s.Tolerant) (c : Amplitude ℝ)
    (lowOver : s.Over False levels low) (highOver : s.Over False levels high) :
    s.Forms (levels + 1) (s.join c low high) := by
  unfold NodeStore.join
  dsimp only
  by_cases small : Scalar.le ((s.scale low).normSq + (s.scale high).normSq) s.threshold = true
  · rw [if_pos small]
    exact .of_zero tolerant _
  · rw [if_neg small]
    generalize (if s.negligible (s.scale low) then s.scale high else s.scale low).angle = angle
    by_cases tiny : s.negligible (c * Amplitude.ofPolar
        (Scalar.sqrt ((s.scale low).normSq + (s.scale high).normSq)) angle) = true
    · rw [if_pos tiny]
      exact .of_zero tolerant _
    · rw [if_neg tiny]
      rw [Scalar.le_iff, not_le] at small
      have positive := tolerant.nonneg.trans_lt small
      have modulus : Complex.normSq (Amplitude.ofPolar
          (Scalar.sqrt ((s.scale low).normSq + (s.scale high).normSq)) angle).toComplex =
            (s.scale low).normSq + (s.scale high).normSq := by
        rw [Amplitude.normSq_toComplex_ofPolar, Scalar.sqrt_eq, Real.mul_self_sqrt positive.le]
      exact tolerant.divide_both lowOver highOver (positive.trans_eq modulus.symm)
        (by rw [modulus, Amplitude.normSq_eq, Amplitude.normSq_eq]) _

theorem Forms.returnsOver {result : NodeId × NodeStore ℝ} (forms : s.Forms levels result) :
    s.ReturnsOver Tolerant False levels result :=
  ⟨forms.growth, forms.tolerant, forms.stands⟩

theorem Tolerant.cofactors (tolerant : s.Tolerant) (stands : s.Over False (levels + 1) id) :
    s.ReturnsPair Tolerant False levels (s.cofactors id) := by
  unfold NodeStore.cofactors
  split
  · exact ⟨.refl s, tolerant, tolerant.over_zero levels, tolerant.over_zero levels⟩
  · next some =>
      have nonzero : s.isZero id = false := Bool.not_eq_true _ ▸ some
      have spans := stands.spans tolerant.toOrdered nonzero
      dsimp only
      generalize (s.get id).branches = branches at spans
      cases spans with
      | @fork _ low high lowOver highOver _ =>
          have scaled (child : NodeId)
              (found : s.negligible ((s.get id).scale * s.scale child) = false) :
              s.isZero child = false := by
            by_contra empty
            have product : (s.get id).scale * s.scale child = 0 := by
              apply Amplitude.toComplex_injective
              rw [scale_of_isZero (Bool.not_eq_false _ ▸ empty), Amplitude.toComplex_mul,
                Amplitude.toComplex_zero, mul_zero]
            rw [product, tolerant.negligible_zero] at found
            cases found
          obtain ⟨lowForms, -⟩ := tolerant.rescale lowOver ((s.get id).scale * s.scale low)
            (scaled low)
          obtain ⟨highForms, -⟩ := lowForms.tolerant.rescale (highOver.grow lowForms.growth)
            ((s.get id).scale * s.scale high) fun found => by
              rw [lowForms.growth.isZero_eq highOver.stored]
              refine scaled high ?_
              rw [← found, negligible, negligible, lowForms.growth.threshold_eq]
          exact lowForms.returnsOver.pair highForms.returnsOver

/-- On a tolerant store every step of a mix returns subtrees over the right number of qubits. -/
theorem mixable_tolerant : Mixable Tolerant False where
  zero tolerant levels := tolerant.over_zero levels
  rescale tolerant stands nonzero c := (tolerant.rescale stands c fun _ => nonzero).1.returnsOver
  cofactors tolerant stands := tolerant.cofactors stands
  join tolerant lowOver highOver c := (tolerant.join c lowOver highOver).returnsOver

/-! ## Nodes that stand for others -/

/-- A node that decides a number of qubits and is zero only if the node it stands for is. -/
structure StandsFor (source : NodeStore ℝ) (id : NodeId) (levels : ℕ) (t : NodeStore ℝ)
    (value : NodeId) : Prop where
  rooted : t.Rooted levels value
  kept : source.isZero id = false → t.isZero value = false

section StandsFor

variable {source : NodeStore ℝ} {value newLow newHigh : NodeId} {branches : Option (NodeId × NodeId)}

theorem StandsFor.grow (stands : StandsFor source id levels s value) (growth : s.Extends t) :
    StandsFor source id levels t value where
  rooted := stands.rooted.grow growth
  kept nonzero := (growth.isZero_eq stands.rooted.stored).trans (stands.kept nonzero)

theorem Tolerant.standsFor_zero (tolerant : t.Tolerant) (empty : source.isZero id = true)
    (levels : ℕ) : StandsFor source id levels t 0 :=
  ⟨tolerant.rooted_zero levels, fun nonzero => absurd empty (by simp [nonzero])⟩

/-- Nodes that stand for the branches of a node can be the branches of one that stands for it. -/
theorem OnLevel.spans {width depth : ℕ} (onLevel : source.OnLevel False width depth id)
    (ordered : source.Ordered) (nonzero : source.isZero id = false)
    (found : (source.get id).branches = some (low, high))
    (lowStands : StandsFor source low levels t newLow)
    (highStands : StandsFor source high levels t newHigh) :
    t.Spans (levels + 1) (some (newLow, newHigh)) := by
  obtain ⟨_, kept, _⟩ := onLevel.fork ordered nonzero found
  exact .fork lowStands.rooted.toOver highStands.rooted.toOver
    (kept.imp (fun some => lowStands.kept (unfold_ne_zero.mp some))
      fun some => highStands.kept (unfold_ne_zero.mp some))

theorem Tolerant.push_standsFor (tolerant : t.Tolerant) (thresholds : t.threshold = source.threshold)
    (spans : t.Spans levels branches) (nonzero : source.isZero id = false) :
    t.Returns (StandsFor source id levels) (t.push ⟨(source.get id).scale, branches⟩) := by
  have forms : t.Forms levels (t.push ⟨(source.get id).scale, branches⟩) :=
    tolerant.forms_push spans
  refine ⟨forms.growth, forms.tolerant, forms.holds, fun _ => ?_⟩
  rw [fst_push, tolerant.isZero_push, ← not_negligible_of_not_isZero nonzero, negligible, negligible,
    thresholds]

end StandsFor

/-! ## Walks that append to a tolerant store -/

def Provided (given : Option NodeId) (holds : NodeStore ℝ → NodeId → Prop) (t : NodeStore ℝ)
    (id : NodeId) : Prop :=
  match given with
  | some known => id = known
  | none => holds t id

/-- What the visits of a walk over `s` ensure that appends to a tolerant store
which extends `base`. -/
structure Builds (s base : NodeStore ℝ) (visit : ℕ → NodeId → Visit (NodeStore ℝ) NodeId)
    (meets : ℕ → NodeId → Prop) (holds : ℕ → NodeId → NodeStore ℝ → NodeId → Prop) : Prop where
  level_unique : ∀ {depth other id}, meets depth id → meets other id → s.isZero id = false →
    depth = other
  grow : ∀ {depth id t t' value}, holds depth id t value → t.Extends t' → holds depth id t' value
  zero : ∀ {depth id t}, meets depth id → s.isZero id = true → t.Tolerant → holds depth id t 0
  answer : ∀ {depth id result t}, meets depth id → s.isZero id = false →
    visit depth id = .answer result → base.Extends t → t.Tolerant →
    t.Returns (holds depth id) (result t)
  descend : ∀ {depth id given given' combine}, meets depth id → s.isZero id = false →
    visit depth id = .descend given given' combine →
    ∃ c, s.children id = some c ∧
      (given = none → meets (depth + 1) c.low) ∧ (given' = none → meets (depth + 1) c.high) ∧
      ∀ {t low high}, base.Extends t → t.Tolerant →
        Provided given (holds (depth + 1) c.low) t low →
        Provided given' (holds (depth + 1) c.high) t high →
        t.Returns (holds depth id) (combine low high t)

section Walks

variable {base : NodeStore ℝ} {visit : ℕ → NodeId → Visit (NodeStore ℝ) NodeId}
  {meets : ℕ → NodeId → Prop} {holds : ℕ → NodeId → NodeStore ℝ → NodeId → Prop}

theorem Provided.of_supplied {given : Option NodeId} {p : NodeStore ℝ → NodeId → Prop}
    {before after : NodeStore ℝ}
    (supplied : Supplied given (fun t v t' => t.Returns p (v, t')) before id after) :
    before.Extends after ∧ Provided given p after id := by
  cases given with
  | some known =>
      obtain ⟨same, rfl⟩ := supplied
      exact ⟨.refl _, same⟩
  | none => exact ⟨supplied.growth, supplied.holds⟩

theorem Provided.grow {given : Option NodeId} {p : NodeStore ℝ → NodeId → Prop}
    {before after : NodeStore ℝ} (provided : Provided given p before id)
    (growth : before.Extends after) (grow : ∀ {t t' value}, p t value → t.Extends t' → p t' value) :
    Provided given p after id := by
  cases given with
  | some known => exact provided
  | none => exact grow provided growth

theorem Builds.contract (builds : Builds s base visit meets holds) :
    s.Contract 0 visit meets (fun t => base.Extends t ∧ t.Tolerant) Extends
      (fun depth id t v t' => t.Returns (holds depth id) (v, t'))
      (fun id v t => ∃ depth, meets depth id ∧ holds depth id t v) where
  zero met empty before := ⟨.refl _, before.2, builds.zero met empty before.2⟩
  answer met nonzero visited before :=
    have returns := builds.answer met nonzero visited before.1 before.2
    ⟨returns.growth, returns⟩
  descend met nonzero visited := by
    obtain ⟨c, children, lowMet, highMet, ensures⟩ := builds.descend met nonzero visited
    refine ⟨c, children, lowMet, highMet, fun _ _ valid lowSupplied highSupplied => ?_⟩
    obtain ⟨lowGrowth, lowProvided⟩ := Provided.of_supplied lowSupplied
    obtain ⟨highGrowth, highProvided⟩ := Provided.of_supplied highSupplied
    have returns := ensures valid.1 valid.2 (lowProvided.grow highGrowth builds.grow) highProvided
    exact ⟨returns.growth, returns.after (lowGrowth.trans highGrowth)⟩
  valid_after before returns := ⟨before.1.trans returns.growth, returns.tolerant⟩
  record met _ returns := ⟨_, met, returns.holds⟩
  keep _ growth done := by
    obtain ⟨depth, met, found⟩ := done
    exact ⟨depth, met, builds.grow found growth⟩
  reuse met nonzero before done := by
    obtain ⟨depth, again, found⟩ := done
    obtain rfl := builds.level_unique met again nonzero
    exact ⟨.refl _, before.2, found⟩

/-- A walk that appends to a store returns a node with the property its visits ensure. -/
theorem Builds.walkFrom (builds : Builds s base visit meets holds) {depth : ℕ}
    (met : meets depth id) (growth : base.Extends t) (tolerant : t.Tolerant) :
    t.Returns (holds depth id) (s.walkFrom 0 visit depth id t) :=
  builds.contract.walkFrom met t ⟨growth, tolerant⟩

end Walks

end AmplitudeTree.NodeStore
