import AmplitudeTree.Proofs.NodeStore.Reduce
import AmplitudeTree.Tree.Basic

/-!
# The states of exact trees

The state of a tree is the function that gives every assignment the product of the scales on its
path.  A tree is sound if its store is exact and its unfolding is regular over its qubits.  Reducing
a tree and normalizing it keep the unfolding, the latter up to the modulus of the topmost scale.
-/

namespace AmplitudeTree

/-- Every assignment agrees with a basis index on the first qubits. -/
theorem BasisIndex.exists_testBit (width : ℕ) (bits : Assignment) :
    ∃ index < 2 ^ width, ∀ q, q < width → index.testBit q = bits q :=
  ⟨Nat.ofBits fun q : Fin width => bits q, Nat.ofBits_lt_two_pow _,
    fun q below => Nat.testBit_ofBits_lt _ q below⟩

namespace Tree

variable {t : Tree ℝ} {canonical : Prop}

noncomputable def unfold (t : Tree ℝ) : Unfolding := t.store.unfold t.root

/-- The amplitude of every assignment. -/
noncomputable def state (t : Tree ℝ) : Assignment → ℂ := t.unfold.amplitude 0

/-- An exact tree that decides all its qubits on every path, perhaps more of them below a root
without amplitude. -/
structure Sound (canonical : Prop) (t : Tree ℝ) : Prop where
  exact : t.store.Exact
  stored : t.root < t.store.size
  regular : t.unfold.Regular canonical t.width
  below : ∀ {low high}, (t.store.get t.root).branches = some (low, high) →
    ∃ width, t.width ≤ width ∧ t.store.OnLevel canonical width 1 low ∧
      t.store.OnLevel canonical width 1 high

theorem Sound.onLevel (sound : t.Sound canonical) : t.store.OnLevel canonical t.width 0 t.root :=
  ⟨Nat.zero_le _, sound.regular⟩

/-- A tree whose root is the zero node if it has no amplitude. -/
theorem Sound.of_clean (exact : t.store.Exact) (stored : t.root < t.store.size)
    (clean : t.store.isZero t.root = true → t.root = 0)
    (regular : t.unfold.Regular canonical t.width) : t.Sound canonical := by
  refine ⟨exact, stored, regular, fun {low high} branches => ?_⟩
  cases empty : t.store.isZero t.root with
  | true =>
      rw [clean empty] at branches
      exact absurd (exact.branches_lt branches).1 (Nat.not_lt_zero low)
  | false =>
      have onLevel : t.store.OnLevel canonical t.width 0 t.root := ⟨Nat.zero_le _, regular⟩
      obtain ⟨_, lowLevel, highLevel⟩ := onLevel.branches exact.toOrdered empty branches
      exact ⟨t.width, le_refl _, lowLevel, highLevel⟩

theorem sound_of_yields {s : NodeStore ℝ} {result : NodeId × NodeStore ℝ} {width : ℕ}
    {carried : Assignment → ℂ}
    (yields : s.Yields result fun u => u.Carries canonical 0 width carried) (reducedSize : ℕ) :
    Sound canonical ⟨result.2, result.1, width, reducedSize⟩ ∧
      state ⟨result.2, result.1, width, reducedSize⟩ = carried :=
  ⟨.of_clean yields.exact yields.stored yields.clean yields.holds.regular,
    funext yields.holds.amplitude_eq⟩

theorem Sound.of_canonical (sound : t.Sound True) : t.Sound canonical where
  exact := sound.exact
  stored := sound.stored
  regular := sound.regular.of_canonical
  below branches := by
    obtain ⟨width, le, lowLevel, highLevel⟩ := sound.below branches
    exact ⟨width, le, ⟨lowLevel.le, lowLevel.regular.of_canonical⟩,
      highLevel.le, highLevel.regular.of_canonical⟩

/-- A sound tree stays sound as its store grows. -/
theorem Sound.grow (sound : t.Sound canonical) {s : NodeStore ℝ} (growth : t.store.Extends s)
    (exact : s.Exact) :
    Sound canonical { t with store := s } ∧ unfold { t with store := s } = t.unfold := by
  have kept : unfold { t with store := s } = t.unfold := growth.unfold_eq sound.stored
  refine ⟨⟨exact, sound.stored.trans_le growth.size_le, kept ▸ sound.regular,
    fun {low high} branches => ?_⟩, kept⟩
  have branches : (t.store.get t.root).branches = some (low, high) := by
    rw [← growth.get_eq t.root sound.stored]
    exact branches
  obtain ⟨lowLt, highLt⟩ := sound.exact.branches_lt branches
  obtain ⟨width, le, lowLevel, highLevel⟩ := sound.below branches
  refine ⟨width, le, ⟨lowLevel.le, ?_⟩, ⟨highLevel.le, ?_⟩⟩
  · rw [growth.unfold_eq (lowLt.trans sound.stored)]
    exact lowLevel.regular
  · rw [growth.unfold_eq (highLt.trans sound.stored)]
    exact highLevel.regular

theorem Sound.state_congr (sound : t.Sound canonical) {bits other : Assignment}
    (same : ∀ q, q < t.width → bits q = other q) : t.state bits = t.state other :=
  sound.regular.amplitude_congr fun q _ below => same q (by omega)

/-! ## Amplitudes -/

/-- Following an index below a node multiplies by the amplitude below its scale. -/
theorem toComplex_follow {s : NodeStore ℝ} (ordered : s.Ordered) (index : BasisIndex)
    {levels qubit : ℕ} {id : NodeId} (deep : (s.unfold id).Deep levels)
    (nonzero : s.isZero id = false) (a : Amplitude ℝ) :
    (follow s index levels qubit id a).toComplex =
      a.toComplex * ((s.unfold id).withScale 1).amplitude qubit index.testBit := by
  induction levels generalizing qubit id a with
  | zero =>
      obtain ⟨c, leaf⟩ := deep.leaf_of_zero (NodeStore.unfold_ne_zero.mpr nonzero)
      rw [leaf, follow]
      exact (mul_one _).symm
  | succ levels ih =>
      obtain ⟨c, u, v, fork, lowDeep, highDeep⟩ :=
        deep.fork_of_succ (NodeStore.unfold_ne_zero.mpr nonzero)
      obtain ⟨_, low, high, node, rfl, rfl⟩ := ordered.of_unfold_fork fork
      have branch : s.branch? id (index.bit qubit) =
          some (if index.testBit qubit then high else low) := by
        rw [NodeStore.branch?, node]
        rfl
      have deepChild : (s.unfold (if index.testBit qubit then high else low)).Deep levels := by
        split
        · exact highDeep
        · exact lowDeep
      have amplitudes : ((s.unfold id).withScale 1).amplitude qubit index.testBit =
          (s.unfold (if index.testBit qubit then high else low)).amplitude (qubit + 1)
            index.testBit := by
        rw [fork, Unfolding.withScale, Unfolding.amplitude_fork, one_mul]
        split <;> rfl
      rw [follow, branch, amplitudes]
      dsimp only
      generalize (if index.testBit qubit then high else low) = child at deepChild ⊢
      split
      · next empty =>
          rw [NodeStore.unfold_of_isZero empty, Unfolding.amplitude_zero, mul_zero]
          rfl
      · next some =>
          have childNonzero := Bool.not_eq_true _ ▸ some
          rw [ih deepChild childNonzero, Amplitude.toComplex_mul,
            NodeStore.scale_of_not_isZero childNonzero, mul_assoc,
            ← Unfolding.amplitude_eq_scale_mul]

/-- The amplitude of a basis state is the state of its bits, whatever the scales are. -/
theorem toComplex_amplitude_of_deep (ordered : t.store.Ordered) (deep : t.unfold.Deep t.width)
    (index : BasisIndex) : (t.amplitude index).toComplex = t.state index.testBit := by
  unfold amplitude state Tree.unfold
  split
  · next empty => rw [NodeStore.unfold_of_isZero empty]; rfl
  · next some =>
      have nonzero := Bool.not_eq_true _ ▸ some
      rw [toComplex_follow ordered index deep nonzero, NodeStore.scale_of_not_isZero nonzero,
        ← Unfolding.amplitude_eq_scale_mul]

theorem Sound.toComplex_amplitude (sound : t.Sound canonical) (index : BasisIndex) :
    (t.amplitude index).toComplex = t.state index.testBit :=
  toComplex_amplitude_of_deep sound.exact.toOrdered sound.regular.deep index

theorem Sound.amplitude_eq {t' : Tree ℝ} (sound : t.Sound canonical) (sound' : t'.Sound canonical)
    (states : t.state = t'.state) (index : BasisIndex) : t.amplitude index = t'.amplitude index := by
  rw [← Amplitude.toComplex_inj, sound.toComplex_amplitude, sound'.toComplex_amplitude, states]

/-- States that agree on the basis states of a tree's qubits agree. -/
theorem Sound.state_eq {t' : Tree ℝ} (sound : t.Sound canonical) (sound' : t'.Sound canonical)
    (widths : t'.width = t.width)
    (amplitudes : ∀ index < 2 ^ t.width, t.amplitude index = t'.amplitude index) :
    t.state = t'.state := by
  funext bits
  obtain ⟨index, below, same⟩ := BasisIndex.exists_testBit t.width bits
  rw [← sound.state_congr same, ← sound'.state_congr fun q bound => same q (widths ▸ bound),
    ← sound.toComplex_amplitude, ← sound'.toComplex_amplitude, amplitudes index below]

/-- Canonical trees over the same qubits with the same amplitudes have the same unfolding. -/
theorem Sound.unfold_eq {t' : Tree ℝ} (sound : t.Sound True) (sound' : t'.Sound True)
    (widths : t'.width = t.width) (states : t.state = t'.state) : t.unfold = t'.unfold :=
  sound.regular.unique (widths ▸ sound'.regular) (congrFun states)

/-! ## Reduction -/

theorem Sound.reduce_unfold (sound : t.Sound canonical) : t.reduce.unfold = t.unfold :=
  (sound.exact.reduce sound.regular).2.2.2.1

theorem Sound.reduce (sound : t.Sound canonical) : t.reduce.Sound canonical := by
  obtain ⟨exact, stored, clean, _⟩ := sound.exact.reduce sound.regular
  exact .of_clean exact stored clean (by rw [sound.reduce_unfold]; exact sound.regular)

@[simp]
theorem width_reduce (t : Tree ℝ) : t.reduce.width = t.width := rfl

/-- A reduced tree is determined by the unfolding and the width. -/
theorem Sound.reduce_eq {t' : Tree ℝ} (sound : t.Sound canonical) (sound' : t'.Sound canonical)
    (widths : t'.width = t.width) (unfoldings : t.unfold = t'.unfold) : t.reduce = t'.reduce := by
  unfold Tree.reduce
  rw [sound.exact.reduce_eq sound.regular, sound'.exact.reduce_eq sound'.regular, widths]
  rw [show t.store.unfold t.root = t'.store.unfold t'.root from unfoldings]

theorem Sound.reduceIfBloated_unfold (sound : t.Sound canonical) :
    t.reduceIfBloated.unfold = t.unfold := by
  unfold reduceIfBloated
  split
  · exact sound.reduce_unfold
  · rfl

theorem Sound.reduceIfBloated (sound : t.Sound canonical) : t.reduceIfBloated.Sound canonical := by
  unfold Tree.reduceIfBloated
  split
  · exact sound.reduce
  · exact sound

theorem width_reduceIfBloated (t : Tree ℝ) : t.reduceIfBloated.width = t.width := by
  unfold reduceIfBloated
  split <;> rfl

/-! ## Canonical form -/

theorem canonicalVisit_folds {R : Type} [Scalar R] (s : NodeStore R) :
    s.Folds (canonicalVisit s) (fun id t => (id, t)) fun id _ _ low high t =>
      t.join (s.get id).scale low high where
  leaf_eq leaf _ := by rw [canonicalVisit, leaf]
  fork_eq branches _ := by rw [canonicalVisit, branches]

/-- The canonical form of a node carries the state of the node. -/
theorem canonical_appends {s : NodeStore ℝ} (exact : s.Exact) (canonical : Prop) (width : ℕ) :
    s.Appends s (canonicalVisit s) (s.OnLevel canonical width) fun depth id u =>
      u.Carries True depth width ((s.unfold id).amplitude depth) where
  level_unique := NodeStore.OnLevel.unique
  zero met empty := by
    rw [NodeStore.unfold_of_isZero empty]
    exact Unfolding.carries_zero met.le fun _ => rfl
  answer {depth id result t} met nonzero visited growth valid := by
    obtain ⟨leaf, rfl⟩ := (canonicalVisit_folds s).eq_answer visited
    have stored := exact.lt_size nonzero
    refine .of_stored valid ((growth.isZero_eq stored).trans nonzero) ?_
    rw [growth.unfold_eq stored, NodeStore.unfold_of_leaf nonzero leaf]
    obtain rfl := met.eq_width nonzero leaf
    refine ⟨le_refl _, ?_, fun _ => rfl⟩
    rw [Nat.sub_self]
    exact met.scale_ne_zero nonzero
  descend {depth id given given' combine} met nonzero visited := by
    obtain ⟨_, _, branches, rfl, rfl, rfl⟩ := (canonicalVisit_folds s).eq_descend visited
    obtain ⟨_, lowMet, highMet⟩ := met.branches exact.toOrdered nonzero branches
    refine ⟨_, exact.children_eq branches, fun _ => lowMet, fun _ => highMet, ?_⟩
    intro t low high _ valid lowCarries highCarries
    refine (valid.join_carries _ highCarries.1 lowCarries.2 highCarries.2).mono
      fun u carries => carries.congr fun bits => ?_
    rw [exact.amplitude_of_branches nonzero branches]

theorem Sound.canonicalize (sound : t.Sound canonical) :
    t.canonicalize.Sound True ∧ t.canonicalize.state = t.state := by
  exact sound_of_yields ((canonical_appends sound.exact canonical t.width).walkFrom sound.onLevel
    (.refl _) sound.exact) _

@[simp]
theorem width_canonicalize (t : Tree ℝ) : t.canonicalize.width = t.width := rfl

/-! ## Normalization -/

theorem normalizeVisit_folds {R : Type} [Scalar R] (s : NodeStore R) (tolerance : R) :
    s.Folds (normalizeVisit s tolerance) (fun id t => (id, t)) fun id low high newLow newHigh t =>
      if Scalar.lt tolerance (Scalar.abs (t.weight newLow + t.weight newHigh - 1)) then
        t.join (s.get id).scale newLow newHigh
      else if newLow == low && newHigh == high then (id, t)
      else t.push ⟨(s.get id).scale, some (newLow, newHigh)⟩ where
  leaf_eq leaf _ := by rw [normalizeVisit, leaf]
  fork_eq branches _ := by rw [normalizeVisit, branches]

/-- Normalizing the nodes of a canonical tree changes none of them. -/
theorem normalize_appends {s : NodeStore ℝ} (exact : s.Exact) (tolerance : ℝ) (width : ℕ) :
    s.Appends s (normalizeVisit s tolerance) (s.OnLevel True width) fun _ id u =>
      u = s.unfold id where
  level_unique := NodeStore.OnLevel.unique
  zero _ empty := (NodeStore.unfold_of_isZero empty).symm
  answer {depth id result t} met nonzero visited growth valid := by
    obtain ⟨_, rfl⟩ := (normalizeVisit_folds s tolerance).eq_answer visited
    have stored := exact.lt_size nonzero
    exact .of_stored valid ((growth.isZero_eq stored).trans nonzero) (growth.unfold_eq stored)
  descend {depth id given given' combine} met nonzero visited := by
    obtain ⟨low, high, branches, rfl, rfl, rfl⟩ :=
      (normalizeVisit_folds s tolerance).eq_descend visited
    obtain ⟨_, _, lowMet, highMet, balanced⟩ := met.fork exact.toOrdered nonzero branches
    have scaled := met.scale_ne_zero nonzero
    have unfolded := exact.unfold_of_branches nonzero branches
    refine ⟨_, exact.children_eq branches, fun _ => lowMet, fun _ => highMet, ?_⟩
    intro t newLow newHigh growth valid lowEq highEq
    dsimp only
    split
    · refine (valid.join _ _ highEq.1).mono fun u result => ?_
      rw [result, unfolded, lowEq.2, highEq.2, (balanced trivial).join_eq lowMet.regular scaled]
    · split
      · have stored := exact.lt_size nonzero
        exact .of_stored valid ((growth.isZero_eq stored).trans nonzero) (growth.unfold_eq stored)
      · refine (valid.push_fork scaled lowEq.1 highEq.1).mono fun u result => ?_
        rw [result, unfolded, lowEq.2, highEq.2]

/-- The tree whose topmost scale has modulus one has the state divided by that modulus. -/
theorem Sound.withUnitRoot (sound : t.Sound canonical) (nonzero : t.store.isZero t.root = false) :
    t.withUnitRoot.Sound canonical ∧
      t.withUnitRoot.state = fun bits => t.state bits / (‖t.unfold.scale‖ : ℂ) := by
  have scale := NodeStore.scale_of_not_isZero nonzero
  have scaled : t.unfold.scale ≠ 0 :=
    sound.regular.scale_ne_zero (NodeStore.unfold_ne_zero.mpr nonzero)
  have modulus : ((t.store.get t.root).scale.dividedBy (t.store.get t.root).scale.norm).toComplex =
      t.unfold.scale / (‖t.unfold.scale‖ : ℂ) := by
    rw [Amplitude.toComplex_dividedBy, Amplitude.norm_eq, scale]
    rfl
  have yields := sound.exact.rescale t.root
    ((t.store.get t.root).scale.dividedBy (t.store.get t.root).scale.norm)
    fun empty => absurd empty (by rw [nonzero]; exact Bool.false_ne_true)
  refine sound_of_yields (yields.mono fun u result => ?_) _
  rw [result, modulus]
  refine ⟨Nat.zero_le _, sound.regular.rescale _, fun bits => ?_⟩
  rw [Unfolding.amplitude_rescale, state, Unfolding.amplitude_eq_scale_mul t.unfold]
  exact div_mul_eq_mul_div ..

theorem isZero_iff_unfold_eq : t.store.isZero t.root = true ↔ t.unfold = .zero :=
  NodeStore.unfold_eq_zero.symm

/-- Normalizing a canonical tree only sets the modulus of the root's scale to one. -/
theorem Sound.normalize_eq (sound : t.Sound True) (tolerance : ℝ) :
    ∃ walked : Tree ℝ, walked.Sound True ∧ walked.width = t.width ∧ walked.unfold = t.unfold ∧
      t.normalize tolerance =
        if walked.store.isZero walked.root then walked else walked.withUnitRoot := by
  have yields := (normalize_appends sound.exact tolerance t.width).walkFrom sound.onLevel
    (.refl _) sound.exact
  unfold Tree.normalize
  generalize t.store.walkFrom 0 (normalizeVisit t.store tolerance) 0 t.root t.store = result at *
  obtain ⟨root, store⟩ := result
  have unfolded : Tree.unfold { t with store := store, root := root } = t.unfold := yields.holds
  exact ⟨{ t with store := store, root := root }, .of_clean yields.exact yields.stored yields.clean
    (unfolded ▸ sound.regular), rfl, unfolded, rfl⟩

/-- Normalizing a canonical tree keeps its state up to a positive factor. -/
theorem Sound.normalize (sound : t.Sound True) (tolerance : ℝ) :
    (t.normalize tolerance).Sound True ∧
      ∃ factor : ℝ, 0 < factor ∧
        (t.normalize tolerance).state = fun bits => t.state bits / (factor : ℂ) := by
  obtain ⟨walked, kept, -, unfolded, normalized⟩ := sound.normalize_eq tolerance
  rw [normalized]
  split
  · exact ⟨kept, 1, one_pos, by simp [state, unfolded]⟩
  · next nonempty =>
      have nonzero := Bool.not_eq_true _ ▸ nonempty
      obtain ⟨unit, states⟩ := kept.withUnitRoot nonzero
      refine ⟨unit, ‖t.unfold.scale‖, norm_pos_iff.mpr ?_, ?_⟩
      · rw [← unfolded]
        exact kept.regular.scale_ne_zero (NodeStore.unfold_ne_zero.mpr nonzero)
      · rw [states, unfolded, state, unfolded, state]

@[simp]
theorem width_normalize {R : Type} [Scalar R] (t : Tree R) (tolerance : R) :
    (t.normalize tolerance).width = t.width := by
  unfold normalize
  dsimp only
  split <;> rfl

/-! ## Basis states -/

noncomputable def basisState (index : BasisIndex) (qubit stop : ℕ) (phase : ℂ)
    (bits : Assignment) : ℂ :=
  if ∀ q, qubit ≤ q → q < stop → bits q = index.testBit q then phase else 0

@[simp]
theorem basisState_self (index : BasisIndex) (qubit : ℕ) (phase : ℂ) (bits : Assignment) :
    basisState index qubit qubit phase bits = phase :=
  if_pos fun _ lower upper => absurd lower (Nat.not_le.mpr upper)

theorem basisState_congr (index : BasisIndex) (qubit : ℕ) {stop : ℕ} (phase : ℂ)
    {bits other : Assignment} (same : ∀ q < stop, bits q = other q) :
    basisState index qubit stop phase bits = basisState index qubit stop phase other := by
  refine if_congr (forall_congr' fun q => forall₂_congr fun _ inside => ?_) rfl rfl
  rw [same q inside]

theorem basisState_succ (index : BasisIndex) {qubit stop : ℕ} (below : qubit < stop) (phase : ℂ)
    (bits : Assignment) :
    basisState index qubit stop phase bits =
      if bits qubit = index.testBit qubit then basisState index (qubit + 1) stop phase bits
      else 0 := by
  have step : (∀ q, qubit ≤ q → q < stop → bits q = index.testBit q) ↔
      bits qubit = index.testBit qubit ∧
        ∀ q, qubit + 1 ≤ q → q < stop → bits q = index.testBit q := by
    constructor
    · exact fun found => ⟨found qubit (le_refl _) below, fun q lower => found q (by omega)⟩
    · rintro ⟨here, later⟩ q lower upper
      rcases Nat.eq_or_lt_of_le lower with rfl | lower
      · exact here
      · exact later q lower upper
  unfold basisState
  by_cases here : bits qubit = index.testBit qubit
  · rw [if_pos here]
    exact if_congr (step.trans (and_iff_right here)) rfl rfl
  · rw [if_neg here, if_neg fun found => here (step.mp found).1]

/-- The subtree of a basis state below a level, with scale one. -/
structure PathChild (s : NodeStore ℝ) (index : BasisIndex) (level width : ℕ) (child : NodeId) :
    Prop where
  exact : s.Exact
  stored : child < s.size
  unit : (s.unfold child).scale = 1
  carries : (s.unfold child).Carries True level width (basisState index level width 1)

/-- The branches over a basis path, the path on the side of the index. -/
structure PathBranches (s : NodeStore ℝ) (index : BasisIndex) (level width : ℕ)
    (low high : NodeId) : Prop where
  below : level < width
  exact : s.Exact
  low_stored : low < s.size
  high_stored : high < s.size
  lowLevel : s.OnLevel True width (level + 1) low
  highLevel : s.OnLevel True width (level + 1) high
  nonzero : s.unfold low ≠ .zero ∨ s.unfold high ≠ .zero
  balanced : Unfolding.Balanced (s.unfold low) (s.unfold high)
  amplitude_eq : ∀ bits, (if bits level then (s.unfold high).amplitude (level + 1) bits
    else (s.unfold low).amplitude (level + 1) bits) = basisState index level width 1 bits

theorem PathChild.branches {s : NodeStore ℝ} {index : BasisIndex} {level width : ℕ}
    {child : NodeId} (path : PathChild s index (level + 1) width child) :
    ∃ low high, (if index.bit level then (0, child) else (child, 0)) = (low, high) ∧
      PathBranches s index level width low high := by
  have below : level < width := path.carries.le
  have nonzero : s.unfold child ≠ .zero := fun found => by
    have unit := path.unit
    rw [found] at unit
    exact zero_ne_one unit
  have onLevel : s.OnLevel True width (level + 1) child := ⟨below, path.carries.regular⟩
  have zeroLevel : s.OnLevel True width (level + 1) 0 :=
    ⟨below, by rw [NodeStore.unfold_zero]; exact Unfolding.regular_zero⟩
  have zeroScale : (s.unfold 0).scale = 0 := by rw [NodeStore.unfold_zero]; rfl
  have positive : Unfolding.Positive (s.unfold child).scale := by
    rw [path.unit]
    exact ⟨one_pos, rfl⟩
  have state (bits : Assignment) : basisState index level width 1 bits =
      if bits level = index.bit level then (s.unfold child).amplitude (level + 1) bits else 0 := by
    rw [basisState_succ index below, path.carries.amplitude_eq]
    rfl
  cases bit : index.bit level with
  | false =>
      refine ⟨child, 0, rfl, below, path.exact, path.stored, path.exact.nonempty, onLevel, zeroLevel,
        .inl nonzero, ⟨?_, fun _ => positive, fun found => absurd found nonzero⟩, fun bits => ?_⟩
      · rw [path.unit, zeroScale, Complex.normSq_one, Complex.normSq_zero, add_zero]
      · rw [state, bit, NodeStore.unfold_zero]
        cases bits level <;> rfl
  | true =>
      refine ⟨0, child, rfl, below, path.exact, path.exact.nonempty, path.stored, zeroLevel, onLevel,
        .inr nonzero, ⟨?_, fun found => absurd (NodeStore.unfold_zero s) found, fun _ => positive⟩,
        fun bits => ?_⟩
      · rw [path.unit, zeroScale, Complex.normSq_one, Complex.normSq_zero, zero_add]
      · rw [state, bit, NodeStore.unfold_zero]
        cases bits level <;> rfl

theorem PathBranches.push {s : NodeStore ℝ} {index : BasisIndex} {level width : ℕ}
    {low high : NodeId} (path : PathBranches s index level width low high) {c : Amplitude ℝ}
    (scaled : c.toComplex ≠ 0) :
    s.Yields (s.push ⟨c, some (low, high)⟩) fun u => u.scale = c.toComplex ∧
      u.Carries True level width fun bits => c.toComplex * basisState index level width 1 bits := by
  have below := path.below
  have levels : width - level = width - (level + 1) + 1 := by omega
  refine (path.exact.push_fork scaled path.low_stored path.high_stored).mono fun u result => ?_
  rw [result]
  refine ⟨rfl, path.below.le, ?_, fun bits => ?_⟩
  · rw [levels]
    exact ⟨scaled, path.nonzero, path.lowLevel.regular, path.highLevel.regular,
      fun _ => path.balanced⟩
  · rw [Unfolding.amplitude_fork, path.amplitude_eq]

/-- A basis path ends with the node for qubit 0, whose scale is the phase. -/
theorem PathChild.basisPath_eq {s : NodeStore ℝ} {index : BasisIndex} {level width : ℕ}
    {child : NodeId} (path : PathChild s index (level + 1) width child) (phase : Amplitude ℝ) :
    ∃ s' low high, PathBranches s' index 0 width low high ∧
      basisPath index phase (level + 1) child s = s'.push ⟨phase, some (low, high)⟩ := by
  obtain ⟨low, high, pair, branches⟩ := path.branches
  induction level generalizing s child low high with
  | zero =>
      refine ⟨s, low, high, branches, ?_⟩
      rw [basisPath, pair]
      rfl
  | succ level ih =>
      have pushed := branches.push (c := 1) one_ne_zero
      have parent : PathChild (s.push ⟨1, some (low, high)⟩).2 index (level + 1) width s.size :=
        ⟨pushed.exact, pushed.stored, pushed.holds.1, pushed.holds.2.congr fun bits => one_mul _⟩
      obtain ⟨low', high', pair', branches'⟩ := parent.branches
      have path := ih parent low' high' pair' branches'
      rw [basisPath, pair]
      exact path

/-- A tree whose root has the scale zero is sound if the nodes below it are. -/
theorem sound_push_zero (canonical : Prop) {s : NodeStore ℝ} (exact : s.Exact) {node : Node ℝ}
    (empty : node.scale.toComplex = 0) (width : ℕ)
    (below : ∀ {low high}, node.branches = some (low, high) → low < s.size ∧ high < s.size ∧
      s.OnLevel canonical width 1 low ∧ s.OnLevel canonical width 1 high) :
    Sound canonical (ofStore (s.push node).2 (s.push node).1 width) ∧
      (ofStore (s.push node).2 (s.push node).1 width).state = fun _ => 0 := by
  have stored : ∀ low high, node.branches = some (low, high) → low < s.size ∧ high < s.size :=
    fun low high branches => ⟨(below branches).1, (below branches).2.1⟩
  have unfolded : (ofStore (s.push node).2 (s.push node).1 width).unfold = .zero :=
    NodeStore.unfold_of_isZero ((exact.isZero_push stored).mpr empty)
  refine ⟨⟨exact.push stored, by simp [ofStore], ?_, fun {low high} branches => ?_⟩, ?_⟩
  · rw [unfolded]
    exact Unfolding.regular_zero
  · have branches : node.branches = some (low, high) := by
      rw [← NodeStore.get_push s node]
      exact branches
    obtain ⟨lowStored, highStored, lowLevel, highLevel⟩ := below branches
    have growth := NodeStore.extends_push s node
    refine ⟨width, le_refl _, ⟨lowLevel.le, ?_⟩, ⟨highLevel.le, ?_⟩⟩
    · rw [show (ofStore (s.push node).2 (s.push node).1 width).store.unfold low = s.unfold low
        from growth.unfold_eq lowStored]
      exact lowLevel.regular
    · rw [show (ofStore (s.push node).2 (s.push node).1 width).store.unfold high = s.unfold high
        from growth.unfold_eq highStored]
      exact highLevel.regular
  · rw [state, unfolded]
    rfl

theorem sound_basis (width : ℕ) (index : BasisIndex) (phase : Amplitude ℝ) :
    (basis width index phase 0).Sound True ∧ (basis width index phase 0).state =
      fun bits => phase.toComplex * basisState index 0 width 1 bits := by
  cases width with
  | zero =>
      change Sound True (ofStore ((NodeStore.empty 0).push (.leaf phase)).2
        ((NodeStore.empty 0).push (.leaf phase)).1 0) ∧ _
      by_cases empty : phase.toComplex = 0
      · obtain ⟨sound, states⟩ := sound_push_zero True .empty
          (show (Node.leaf phase).scale.toComplex = 0 from empty) 0 fun branches => by cases branches
        refine ⟨sound, states.trans (funext fun bits => ?_)⟩
        rw [empty, zero_mul]
      · refine sound_of_yields ((NodeStore.Exact.empty.push_leaf empty).mono fun u result => ?_) _
        rw [result]
        exact ⟨le_refl _, empty, fun bits => by rw [basisState_self, mul_one]; rfl⟩
  | succ width =>
      have leaf := NodeStore.Exact.empty.push_leaf (c := 1) one_ne_zero
      have path : PathChild ((NodeStore.empty 0).push (.leaf 1)).2 index (width + 1) (width + 1)
          ((NodeStore.empty 0).push (.leaf (1 : Amplitude ℝ))).1 := by
        refine ⟨leaf.exact, leaf.stored, by rw [leaf.holds]; rfl, ?_⟩
        rw [leaf.holds]
        refine ⟨le_refl _, ?_, fun bits => (if_pos fun q lower upper => ?_).symm⟩
        · rw [Nat.sub_self]
          exact one_ne_zero
        · exact absurd lower (by omega)
      obtain ⟨s, low, high, branches, eq⟩ := path.basisPath_eq phase
      have built : basis (width + 1) index phase 0 =
          ofStore (s.push ⟨phase, some (low, high)⟩).2 (s.push ⟨phase, some (low, high)⟩).1
            (width + 1) := by
        rw [← eq]
        rfl
      rw [built]
      by_cases empty : phase.toComplex = 0
      · obtain ⟨sound, states⟩ := sound_push_zero True branches.exact
          (show (Node.mk phase (some (low, high))).scale.toComplex = 0 from empty) (width + 1)
          fun found => by
            cases found
            exact ⟨branches.low_stored, branches.high_stored, branches.lowLevel,
              branches.highLevel⟩
        refine ⟨sound, states.trans (funext fun bits => ?_)⟩
        rw [empty, zero_mul]
      · exact sound_of_yields ((branches.push empty).mono fun u carries => carries.2) _

end Tree

end AmplitudeTree
