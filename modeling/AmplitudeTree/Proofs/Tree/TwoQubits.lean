import AmplitudeTree.Proofs.Tree.Kept
import AmplitudeTree.Proofs.Tree.OneQubit

/-!
# Two qubits at a threshold

A product state of two qubits, written out node by node as two gates on a basis state build it.  Every
branch is above the threshold, so the state is exact.  A collapse of the second qubit may keep nothing
of it all the same: its weight is spread over both branches of the first qubit, where each share is
cut on its own.
-/

namespace AmplitudeTree

namespace NodeStore

variable {s : NodeStore ℝ} {id low high : NodeId} {c : Amplitude ℝ}

theorem rescale_eq_push (scaled : s.negligible c = false) (differs : (s.get id).scale ≠ c) :
    s.rescale id c = s.push ⟨c, (s.get id).branches⟩ := by
  have other : (s.get id).scale.same c = false := by
    rwa [← Bool.not_eq_true, Amplitude.same_iff]
  rw [rescale, if_neg (scaled ▸ Bool.false_ne_true)]
  exact if_neg (other ▸ Bool.false_ne_true)

theorem divideScale_one (null : s.negligible 0 = true) (kept : s.isZero id = false ∨ id = 0) :
    s.divideScale id (s.scale id) 1 = (id, s) := by
  unfold divideScale
  rcases kept with nonzero | rfl
  · have scaled := not_negligible_of_not_isZero nonzero
    have undivided : (s.get id).scale / 1 = (s.get id).scale := by
      rw [← Amplitude.toComplex_inj, Amplitude.toComplex_div, Amplitude.toComplex_one, div_one]
    rw [scale_eq_of_not_isZero nonzero, if_neg (scaled ▸ Bool.false_ne_true), undivided, rescale,
      if_neg (scaled ▸ Bool.false_ne_true)]
    exact if_pos ((Amplitude.same_iff _ _).mpr rfl)
  · rw [scale_of_isZero rfl, if_pos null]

/-- A join of branches that are canonical already appends a node over them as they are. -/
theorem join_eq_push {x : ℝ} (null : s.negligible 0 = true) (small : s.threshold < 1)
    (nonneg : 0 ≤ x) (lowScale : s.scale low = .ofReal x) (lowKept : s.isZero low = false)
    (highKept : s.isZero high = false ∨ high = 0) (unit : x * x + s.weight high = 1)
    (scaled : s.negligible c = false) :
    s.join c low high = s.push ⟨c, some (low, high)⟩ := by
  have total : (s.scale low).normSq + (s.scale high).normSq = 1 := by
    rw [lowScale, Amplitude.normSq_eq (.ofReal x), Amplitude.normSq_ofReal]
    exact unit
  have leading : s.negligible (s.scale low) = false := by
    rw [scale_eq_of_not_isZero lowKept]
    exact not_negligible_of_not_isZero lowKept
  have factor : Amplitude.ofPolar (Scalar.sqrt 1) (Amplitude.ofReal x).angle = (1 : Amplitude ℝ) := by
    have angle : (Amplitude.ofReal x).angle = 0 := Complex.arg_ofReal_of_nonneg nonneg
    rw [← Amplitude.toComplex_inj, angle, Amplitude.toComplex_ofPolar, Scalar.sqrt_eq, Real.sqrt_one,
      Amplitude.toComplex_one]
    simp
  have whole : c * 1 = c := by
    rw [← Amplitude.toComplex_inj, Amplitude.toComplex_mul, Amplitude.toComplex_one, mul_one]
  unfold join
  dsimp only
  rw [total, if_neg (by rw [Scalar.le_iff, not_le]; exact small), leading, if_neg Bool.false_ne_true,
    lowScale, factor, whole, if_neg (scaled ▸ Bool.false_ne_true), ← lowScale,
    divideScale_one null (.inl lowKept)]
  dsimp only
  rw [divideScale_one null highKept]

end NodeStore

noncomputable def Gate.turn (x y : ℝ) : Gate ℝ := ⟨.ofReal x, .ofReal (-y), .ofReal y, .ofReal x⟩

namespace Tree

/-- Real amplitudes above a threshold, `z` for both values of the first qubit, `x` and
`y` for the second. -/
structure Spread (threshold x y z : ℝ) : Prop where
  nonneg : 0 ≤ threshold
  low_nonneg : 0 ≤ x
  half_nonneg : 0 ≤ z
  halves : z * z + z * z = 1
  unit : x * x + y * y = 1
  low : threshold < x * x
  high : threshold < y * y
  half : threshold < z * z

variable {threshold x y z : ℝ}

noncomputable def turnedNodes (x y z : ℝ) : List (Node ℝ) :=
  [.leaf 0, .leaf 1, ⟨1, some (1, 0)⟩, ⟨1, some (2, 0)⟩,
    .leaf (.ofReal x), .leaf (.ofReal y), ⟨1, some (4, 5)⟩, ⟨1, some (6, 0)⟩,
    ⟨.ofReal z, some (4, 5)⟩, ⟨.ofReal z, some (4, 5)⟩, ⟨1, some (8, 9)⟩]

noncomputable def turnedTree (threshold x y z : ℝ) (size : ℕ) : Tree ℝ where
  store := ⟨((turnedNodes x y z).take size).toArray, threshold⟩
  root := size - 1
  width := 2
  reducedSize := 4

namespace Spread

variable {s : NodeStore ℝ}

theorem small (spread : Spread threshold x y z) : threshold < 1 / 2 := by
  linarith [spread.half, spread.halves]

theorem scaled_one (spread : Spread threshold x y z) (thresholds : s.threshold = threshold) :
    s.negligible 1 = false := by
  rw [NodeStore.negligible_eq_false, thresholds, Amplitude.toComplex_one, Complex.normSq_one]
  linarith [spread.small]

theorem scaled_real {w : ℝ} (above : threshold < w * w) (thresholds : s.threshold = threshold) :
    s.negligible (.ofReal w) = false := by
  rw [NodeStore.negligible_eq_false, thresholds, Amplitude.normSq_ofReal]
  exact above

theorem null (spread : Spread threshold x y z) (thresholds : s.threshold = threshold) :
    s.negligible 0 = true := by
  rw [NodeStore.negligible, Amplitude.negligible_iff, thresholds, Amplitude.toComplex_zero,
    Complex.normSq_zero]
  exact spread.nonneg

theorem one_ne_ofReal {w : ℝ} (below : w * w < 1) : (1 : Amplitude ℝ) ≠ .ofReal w := by
  intro same
  have same : 1 = w := congrArg Amplitude.re same
  rw [← same] at below
  linarith

theorem low_lt_one (spread : Spread threshold x y z) : x * x < 1 := by
  linarith [spread.unit, spread.high, spread.nonneg]

theorem high_lt_one (spread : Spread threshold x y z) : y * y < 1 := by
  linarith [spread.unit, spread.low, spread.nonneg]

theorem half_lt_one (spread : Spread threshold x y z) : z * z < 1 := by
  linarith [spread.halves, spread.half, spread.nonneg]

theorem mix_second (spread : Spread threshold x y z) :
    (turnedTree threshold x y z 4).store.mix (.turn x y) 0 2 [] 1 0 =
      ((4, 5), (turnedTree threshold x y z 6).store) := by
  have leaf : (turnedTree threshold x y z 4).store.isZero 1 = false :=
    NodeStore.isZero_eq_false nofun (spread.scaled_one rfl)
  have low : (turnedTree threshold x y z 4).store.rescale 1 (.ofReal x) =
      (4, (turnedTree threshold x y z 5).store) :=
    NodeStore.rescale_eq_push (scaled_real spread.low rfl) (one_ne_ofReal spread.low_lt_one)
  have high : (turnedTree threshold x y z 5).store.rescale 1 (.ofReal y) =
      (5, (turnedTree threshold x y z 6).store) :=
    NodeStore.rescale_eq_push (scaled_real spread.high rfl) (one_ne_ofReal spread.high_lt_one)
  rw [NodeStore.mix_column _ 0 2 leaf (NodeStore.scale_eq_of_not_isZero leaf)]
  simp only [Gate.turn, low, high]

theorem join_second (spread : Spread threshold x y z) :
    (turnedTree threshold x y z 6).store.join 1 4 5 = (6, (turnedTree threshold x y z 7).store) := by
  have low : (turnedTree threshold x y z 6).store.isZero 4 = false :=
    NodeStore.isZero_eq_false nofun (scaled_real spread.low rfl)
  have high : (turnedTree threshold x y z 6).store.isZero 5 = false :=
    NodeStore.isZero_eq_false nofun (scaled_real spread.high rfl)
  refine NodeStore.join_eq_push (spread.null rfl) (spread.small.trans one_half_lt_one)
    spread.low_nonneg (NodeStore.scale_eq_of_not_isZero low) low (.inl high) ?_ (spread.scaled_one rfl)
  rw [NodeStore.weight, NodeStore.scale_eq_of_not_isZero high, Amplitude.normSq_eq]
  exact (congrArg (x * x + ·) (Amplitude.normSq_ofReal y)).trans spread.unit

theorem join_above (spread : Spread threshold x y z) :
    (turnedTree threshold x y z 7).store.join 1 6 0 = (7, (turnedTree threshold x y z 8).store) := by
  have one := spread.scaled_one (s := (turnedTree threshold x y z 7).store) rfl
  have low : (turnedTree threshold x y z 7).store.isZero 6 = false :=
    NodeStore.isZero_eq_false nofun one
  refine NodeStore.join_eq_push (spread.null rfl) (spread.small.trans one_half_lt_one) zero_le_one
    (NodeStore.scale_eq_of_not_isZero low) low (.inr rfl) ?_ one
  rw [NodeStore.weight_zero]
  norm_num

theorem apply_second (spread : Spread threshold x y z) :
    (turnedTree threshold x y z 4).apply (.turn x y) [] 1 = turnedTree threshold x y z 8 := by
  let t := turnedTree threshold x y z 4
  let visit := t.applyVisit (.turn x y) [] [] 1
  have ordered : t.store.Ordered :=
    (formed_basis spread.nonneg spread.small 2 0 1).tolerant.toOrdered
  have one := spread.scaled_one (s := t.store) rfl
  have inner : t.store.isZero 2 = false := NodeStore.isZero_eq_false nofun one
  have top : t.store.isZero 3 = false := NodeStore.isZero_eq_false nofun one
  have answer : visit 1 2 = .answer fun s =>
      (s.mix (.turn x y) 0 2 [] 1 0).2.join 1 (s.mix (.turn x y) 0 2 [] 1 0).1.1
        (s.mix (.turn x y) 0 2 [] 1 0).1.2 := rfl
  have below : (t.store.walk 0 visit 1 2 (.start t.store)).1 = 6 ∧
      (t.store.walk 0 visit 1 2 (.start t.store)).2.state = (turnedTree threshold x y z 7).store := by
    rw [NodeStore.walk_of_answer inner (NodeStore.finished_start _ _) answer]
    dsimp only [Progress.start]
    rw [spread.mix_second, spread.join_second]
    exact ⟨rfl, rfl⟩
  have branches : (t.store.get 3).branches = some (2, 0) := rfl
  have descent : visit 0 3 = .descend none none fun low high s =>
      if low == 2 && high == 0 then (3, s) else s.join 1 low high := rfl
  have empty : t.store.isZero 0 = true := rfl
  have walked : t.store.walk 0 visit 0 3 (.start t.store) = _ :=
    ordered.walk_of_descend top (NodeStore.finished_start t.store 3) branches descent
  rw [NodeStore.walk_of_isZero empty, below.1, below.2] at walked
  have root : t.store.walkFrom 0 visit 0 3 t.store = (7, (turnedTree threshold x y z 8).store) := by
    rw [NodeStore.walkFrom, walked]
    exact spread.join_above
  exact congrArg (fun result => { t with store := result.2, root := result.1 }) root

/-- Turning the first qubit copies the node of the second one for each of its values. -/
theorem mix_first (spread : Spread threshold x y z) :
    (turnedTree threshold x y z 8).store.mix (.turn z z) 1 1 [] 6 0 =
      ((8, 9), (turnedTree threshold x y z 10).store) := by
  have inner : (turnedTree threshold x y z 8).store.isZero 6 = false :=
    NodeStore.isZero_eq_false nofun (spread.scaled_one rfl)
  have low : (turnedTree threshold x y z 8).store.rescale 6 (.ofReal z) =
      (8, (turnedTree threshold x y z 9).store) :=
    NodeStore.rescale_eq_push (scaled_real spread.half rfl) (one_ne_ofReal spread.half_lt_one)
  have high : (turnedTree threshold x y z 9).store.rescale 6 (.ofReal z) =
      (9, (turnedTree threshold x y z 10).store) :=
    NodeStore.rescale_eq_push (scaled_real spread.half rfl) (one_ne_ofReal spread.half_lt_one)
  rw [NodeStore.mix_column _ 1 1 inner (NodeStore.scale_eq_of_not_isZero inner)]
  simp only [Gate.turn, low, high]

theorem join_first (spread : Spread threshold x y z) :
    (turnedTree threshold x y z 10).store.join 1 8 9 =
      (10, (turnedTree threshold x y z 11).store) := by
  have low : (turnedTree threshold x y z 10).store.isZero 8 = false :=
    NodeStore.isZero_eq_false nofun (scaled_real spread.half rfl)
  have high : (turnedTree threshold x y z 10).store.isZero 9 = false :=
    NodeStore.isZero_eq_false nofun (scaled_real spread.half rfl)
  refine NodeStore.join_eq_push (spread.null rfl) (spread.small.trans one_half_lt_one)
    spread.half_nonneg (NodeStore.scale_eq_of_not_isZero low) low (.inl high) ?_ (spread.scaled_one rfl)
  rw [NodeStore.weight, NodeStore.scale_eq_of_not_isZero high, Amplitude.normSq_eq]
  exact (congrArg (z * z + ·) (Amplitude.normSq_ofReal z)).trans spread.halves

theorem apply_first (spread : Spread threshold x y z) :
    (turnedTree threshold x y z 8).apply (.turn z z) [] 0 = turnedTree threshold x y z 11 := by
  let t := turnedTree threshold x y z 8
  have top : t.store.isZero 7 = false :=
    NodeStore.isZero_eq_false nofun (spread.scaled_one rfl)
  have answer : t.applyVisit (.turn z z) [] [] 0 0 7 = .answer fun s =>
      (s.mix (.turn z z) 1 1 [] 6 0).2.join 1 (s.mix (.turn z z) 1 1 [] 6 0).1.1
        (s.mix (.turn z z) 1 1 [] 6 0).1.2 := rfl
  have root := NodeStore.walkFrom_of_answer t.store (0 : NodeId) top answer t.store
  rw [spread.mix_first, spread.join_first] at root
  exact congrArg (fun result => { t with store := result.2, root := result.1 }) root

theorem formed (spread : Spread threshold x y z) : (turnedTree threshold x y z 11).Formed threshold := by
  have start : (turnedTree threshold x y z 4).Formed threshold :=
    formed_basis spread.nonneg spread.small 2 0 1
  have second := start.apply (.turn x y) [] 1
  rw [spread.apply_second] at second
  have first := second.apply (.turn z z) [] 0
  rwa [spread.apply_first] at first

theorem unfold_eq (spread : Spread threshold x y z) :
    (turnedTree threshold x y z 11).unfold =
      .fork 1 (.fork z (.leaf x) (.leaf y)) (.fork z (.leaf x) (.leaf y)) := by
  have ordered := spread.formed.tolerant.toOrdered
  have leaf {id : NodeId} {w : ℝ} (nonzero : id ≠ 0) (above : threshold < w * w)
      (found : (turnedTree threshold x y z 11).store.get id = .leaf (.ofReal w)) :
      (turnedTree threshold x y z 11).store.unfold id = .leaf w := by
    have scaled : (turnedTree threshold x y z 11).store.isZero id = false :=
      NodeStore.isZero_eq_false nonzero (found ▸ scaled_real above rfl)
    rw [NodeStore.unfold_of_leaf scaled (congrArg Node.branches found), found]
    rfl
  have half {id : NodeId} (nonzero : id ≠ 0)
      (found : (turnedTree threshold x y z 11).store.get id = ⟨.ofReal z, some (4, 5)⟩) :
      (turnedTree threshold x y z 11).store.unfold id = .fork z (.leaf x) (.leaf y) := by
    have scaled : (turnedTree threshold x y z 11).store.isZero id = false :=
      NodeStore.isZero_eq_false nonzero (found ▸ scaled_real spread.half rfl)
    have first : (turnedTree threshold x y z 11).store.unfold 4 = .leaf x :=
      leaf (Nat.succ_ne_zero 3) spread.low rfl
    have second : (turnedTree threshold x y z 11).store.unfold 5 = .leaf y :=
      leaf (Nat.succ_ne_zero 4) spread.high rfl
    rw [ordered.unfold_of_branches scaled (congrArg Node.branches found), found, first, second]
    rfl
  have root : (turnedTree threshold x y z 11).store.isZero 10 = false :=
    NodeStore.isZero_eq_false nofun (spread.scaled_one rfl)
  have branches : ((turnedTree threshold x y z 11).store.get 10).branches = some (8, 9) := rfl
  refine (ordered.unfold_of_branches root branches).trans ?_
  rw [half (Nat.succ_ne_zero 7) rfl, half (Nat.succ_ne_zero 8) rfl]
  rfl

theorem normSq_eq (spread : Spread threshold x y z) : (turnedTree threshold x y z 11).normSq = 1 := by
  rw [normSq_eq_weight spread.formed.tolerant.toOrdered, spread.unfold_eq]
  simp only [Unfolding.weight, Complex.normSq_ofReal, map_one]
  rw [spread.unit, mul_one, one_mul, spread.halves]

theorem normSq_amplitude (spread : Spread threshold x y z) (index : BasisIndex) :
    ((turnedTree threshold x y z 11).amplitude index).normSq =
      z * z * if index.testBit 1 then y * y else x * x := by
  have deep := spread.formed.rooted.regular.deep
  rw [Amplitude.normSq_eq, toComplex_amplitude_of_deep spread.formed.tolerant.toOrdered deep, state,
    spread.unfold_eq]
  simp only [Unfolding.amplitude_fork, Unfolding.amplitude_leaf, ite_self, one_mul, map_mul,
    Complex.normSq_ofReal, apply_ite Complex.normSq]

/-- The second qubit reads 1 with the squared modulus of its amplitude. -/
theorem prob_eq (spread : Spread threshold x y z) : (turnedTree threshold x y z 11).prob 1 = y * y := by
  rw [prob_eq_of_deep spread.formed.tolerant.toOrdered spread.formed.rooted.regular.deep,
    ← normSq_eq_weight spread.formed.tolerant.toOrdered,
    spread.normSq_eq, div_one, spread.unfold_eq]
  simp only [Unfolding.part, Unfolding.weight, Complex.normSq_ofReal, map_one, if_true]
  rw [one_mul, ← add_mul, spread.halves, one_mul]

/-- If the share of each value of the first qubit is cut, nothing is kept. -/
theorem kept_eq_zero (spread : Spread threshold x y z) (share : z * z * (y * y) ≤ threshold) :
    (turnedTree threshold x y z 11).unfold.kept threshold true 1 = 0 := by
  have half : (Unfolding.fork z (.leaf x) (.leaf y)).kept threshold true 0 = 0 := by
    simp only [Unfolding.kept, if_true, Unfolding.scale_leaf, Complex.normSq_ofReal]
    exact if_pos (.inr share)
  rw [spread.unfold_eq, Unfolding.kept, half, add_zero]
  exact if_pos (.inl spread.nonneg)

end Spread

/-- Equal amplitudes at a threshold of three tenths. -/
theorem spread_halves : Spread (3 / 10) √(1 / 2) √(1 / 2) √(1 / 2) := by
  have square : √(1 / 2) * √(1 / 2) = (1 / 2 : ℝ) := Real.mul_self_sqrt (by norm_num)
  refine ⟨by norm_num, Real.sqrt_nonneg _, Real.sqrt_nonneg _, ?_, ?_, ?_, ?_, ?_⟩ <;>
  rw [square] <;> norm_num

/-- At every positive threshold below one half the weight of 1 may be above the threshold and both
its shares below. -/
theorem exists_spread (positive : 0 < threshold) (small : threshold < 1 / 2) :
    ∃ x y z, Spread threshold x y z ∧ z * z * (y * y) ≤ threshold := by
  have high : 0 ≤ 2 * threshold * (1 - threshold) := by nlinarith
  have low : 0 ≤ 1 - 2 * threshold * (1 - threshold) := by nlinarith
  have half : (0 : ℝ) ≤ 1 / 2 := by norm_num
  refine ⟨√(1 - 2 * threshold * (1 - threshold)), √(2 * threshold * (1 - threshold)), √(1 / 2),
    ⟨positive.le, Real.sqrt_nonneg _, Real.sqrt_nonneg _, ?_, ?_, ?_, ?_, ?_⟩, ?_⟩ <;>
  simp only [Real.mul_self_sqrt, high, low, half]
  · norm_num
  · ring
  · nlinarith
  · nlinarith
  · exact small
  · nlinarith

end Tree

end AmplitudeTree
