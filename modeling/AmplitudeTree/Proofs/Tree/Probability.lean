import AmplitudeTree.Proofs.Norm
import AmplitudeTree.Proofs.Tree.Measure

/-!
# Weights and probabilities

The weight of a subtree is the squared norm of the state below it.  A walk sums it up, whatever scales
count as zero.  So the norm of a tree whose paths end on the last level or in nodes that count as zero
is that of its state, and the probability of a qubit, which is found from the mass that reaches each
node of the qubit's level, is the part of the squared norm where the qubit reads 1, divided by the
whole.  In canonical form the weight is read off the topmost scale, and drawing a basis state depends
on the tree below this scale only.
-/

namespace AmplitudeTree

/-! ## Parts of a weight -/

namespace Unfolding

variable {u : Unfolding} {levels steps : ℕ} {value : Bool}

noncomputable def part (value : Bool) : (steps : ℕ) → Unfolding → ℝ
  | 0, fork c low high => Complex.normSq c * (if value then high else low).weight
  | steps + 1, fork c low high => Complex.normSq c * (part value steps low + part value steps high)
  | _, _ => 0

@[simp]
theorem part_zero (value : Bool) (steps : ℕ) : zero.part value steps = 0 := by
  cases steps <;> rfl

theorem weight_nonneg (u : Unfolding) : 0 ≤ u.weight := by
  induction u with
  | zero => exact le_refl 0
  | leaf c => exact Complex.normSq_nonneg c
  | fork c low high ihLow ihHigh =>
      exact mul_nonneg (Complex.normSq_nonneg c) (add_nonneg ihLow ihHigh)

theorem part_nonneg (value : Bool) (steps : ℕ) (u : Unfolding) : 0 ≤ u.part value steps := by
  induction u generalizing steps with
  | zero => exact (part_zero value steps).ge
  | leaf c => cases steps <;> exact le_refl 0
  | fork c low high ihLow ihHigh =>
      cases steps with
      | zero => exact mul_nonneg (Complex.normSq_nonneg c) (weight_nonneg _)
      | succ steps =>
          exact mul_nonneg (Complex.normSq_nonneg c) (add_nonneg (ihLow steps) (ihHigh steps))

theorem weight_eq_scale_mul (u : Unfolding) :
    u.weight = Complex.normSq u.scale * (u.withScale 1).weight := by
  cases u <;> simp [weight, withScale]

/-- The values of a qubit share the weight. -/
theorem Deep.part_add (deep : u.Deep levels) (inside : steps < levels) :
    u.part false steps + u.part true steps = u.weight := by
  induction levels generalizing u steps with
  | zero => exact absurd inside (Nat.not_lt_zero steps)
  | succ levels ih =>
      by_cases empty : u = zero
      · simp [empty, weight]
      · obtain ⟨c, low, high, rfl, lowDeep, highDeep⟩ := deep.fork_of_succ empty
        cases steps with
        | zero => rw [part, part, weight, if_neg Bool.false_ne_true, if_pos rfl, mul_add]
        | succ steps =>
            have below := Nat.lt_of_succ_lt_succ inside
            rw [part, part, weight, ← ih lowDeep below, ← ih highDeep below]
            ring

theorem Deep.part_eq_zero (deep : u.Deep levels) (outside : levels ≤ steps) (value : Bool) :
    u.part value steps = 0 := by
  induction levels generalizing u steps with
  | zero =>
      by_cases empty : u = zero
      · rw [empty, part_zero]
      · obtain ⟨c, rfl⟩ := deep.leaf_of_zero empty
        cases steps <;> rfl
  | succ levels ih =>
      by_cases empty : u = zero
      · rw [empty, part_zero]
      · obtain ⟨c, low, high, rfl, lowDeep, highDeep⟩ := deep.fork_of_succ empty
        obtain ⟨steps, rfl⟩ := Nat.exists_eq_succ_of_ne_zero (Nat.ne_zero_of_lt outside)
        have below := Nat.le_of_succ_le_succ outside
        rw [part, ih lowDeep below, ih highDeep below, add_zero, mul_zero]

/-- The squared moduli below a fork where its own qubit has a value. -/
theorem both_normSq_projected_self (value : Bool) (qubit : ℕ) (c : ℂ) (low high : Unfolding) :
    both qubit (fun bits => Complex.normSq
        (Tree.projected qubit value ((fork c low high).amplitude qubit) bits)) =
      fun bits => Complex.normSq c *
        Complex.normSq ((if value then high else low).amplitude (qubit + 1) bits) := by
  funext bits
  unfold both Tree.projected
  simp only [Function.update_self, amplitude_fork_update]
  cases value <;> simp [map_mul]

theorem both_normSq_projected_of_ne (value : Bool) {qubit target : ℕ} (other : target ≠ qubit) (c : ℂ)
    (low high : Unfolding) :
    both qubit (fun bits => Complex.normSq
        (Tree.projected target value ((fork c low high).amplitude qubit) bits)) =
      fun bits => Complex.normSq c *
        (Complex.normSq (Tree.projected target value (low.amplitude (qubit + 1)) bits) +
          Complex.normSq (Tree.projected target value (high.amplitude (qubit + 1)) bits)) := by
  funext bits
  unfold both Tree.projected
  simp only [Function.update_of_ne other, amplitude_fork_update]
  split <;> simp [map_mul, mul_add]

/-- The part of the weight for a value is the squared norm where the qubit has it. -/
theorem Deep.summed_part (deep : u.Deep levels) (value : Bool) (qubit : ℕ) (inside : steps < levels)
    (bits : Assignment) :
    summed (List.range' qubit levels)
        (fun bits => Complex.normSq (Tree.projected (qubit + steps) value (u.amplitude qubit) bits))
        bits =
      u.part value steps := by
  induction levels generalizing u qubit steps with
  | zero => exact absurd inside (Nat.not_lt_zero steps)
  | succ levels ih =>
      by_cases empty : u = zero
      · subst empty
        have none (bits : Assignment) :
            Complex.normSq (Tree.projected (qubit + steps) value (zero.amplitude qubit) bits) = 0 := by
          rw [Tree.projected, amplitude_zero, ite_self, map_zero]
        rw [funext none, summed_zero, part_zero]
      · obtain ⟨c, low, high, rfl, lowDeep, highDeep⟩ := deep.fork_of_succ empty
        rw [List.range'_succ, summed_cons]
        cases steps with
        | zero =>
            simp only [Nat.add_zero]
            rw [both_normSq_projected_self, summed_mul, part]
            cases value with
            | false => rw [if_neg Bool.false_ne_true, lowDeep.summed_weight]
            | true => rw [if_pos rfl, highDeep.summed_weight]
        | succ steps =>
            have below : steps < levels := Nat.lt_of_succ_lt_succ inside
            have above : qubit + (steps + 1) = qubit + 1 + steps := by omega
            simp only [above]
            rw [both_normSq_projected_of_ne value (by omega), summed_mul, summed_add,
              ih lowDeep _ below, ih highDeep _ below, part]

end Unfolding

namespace Tree

variable {t : Tree ℝ} {s : NodeStore ℝ} {weights : Std.HashMap NodeId ℝ}

/-! ## Weights of subtrees -/

theorem weight_eq (s : NodeStore ℝ) (id : NodeId) :
    s.weight id = Complex.normSq (s.unfold id).scale := by
  rw [NodeStore.weight, Amplitude.normSq_eq, NodeStore.toComplex_scale]

theorem weight_mul_congr {s : NodeStore ℝ} {id : NodeId} {weight weight' : ℝ}
    (same : s.isZero id = false → weight = weight') :
    s.weight id * weight = Complex.normSq (s.unfold id).scale * weight' := by
  rw [weight_eq]
  cases empty : s.isZero id with
  | true =>
      rw [NodeStore.unfold_of_isZero empty, Unfolding.scale_zero, map_zero, zero_mul, zero_mul]
  | false => rw [same empty]

theorem weightVisit_folds {R : Type} [Scalar R] (s : NodeStore R) :
    s.Folds (weightVisit s) (fun _ _ => (1, ())) fun _ low high lowWeight highWeight _ =>
      (s.weight low * lowWeight + s.weight high * highWeight, ()) where
  leaf_eq leaf _ := by rw [weightVisit, leaf]
  fork_eq branches _ := by rw [weightVisit, branches]

/-- A walk finds the weight of every subtree, apart from its topmost scale. -/
theorem weigh_contract {s : NodeStore ℝ} (ordered : s.Ordered) :
    s.Contract 0 (weightVisit s) (fun _ _ => True) (fun _ => True) (fun _ _ => True)
      (fun _ id _ weight _ => s.isZero id = false → weight = ((s.unfold id).withScale 1).weight)
      (fun id weight _ => s.isZero id = false → weight = ((s.unfold id).withScale 1).weight) where
  zero _ empty _ nonzero := absurd empty (by simp [nonzero])
  answer {depth id before result} _ nonzero visited _ := by
    obtain ⟨leaf, rfl⟩ := (weightVisit_folds s).eq_answer visited
    refine ⟨trivial, fun _ => ?_⟩
    rw [NodeStore.unfold_of_leaf nonzero leaf]
    exact (map_one Complex.normSq).symm
  descend {depth id given given' combine} _ nonzero visited := by
    obtain ⟨low, high, branches, rfl, rfl, rfl⟩ := (weightVisit_folds s).eq_descend visited
    refine ⟨_, ordered.children_eq branches, fun _ => trivial, fun _ => trivial, ?_⟩
    intro _ lowWeight _ highWeight _ _ _ _ lowSupplied highSupplied
    refine ⟨trivial, fun _ => ?_⟩
    dsimp only
    rw [weight_mul_congr lowSupplied, weight_mul_congr highSupplied,
      ← Unfolding.weight_eq_scale_mul, ← Unfolding.weight_eq_scale_mul,
      ordered.unfold_of_branches nonzero branches]
    exact (one_mul _).symm.trans (congrArg (· * _) (map_one Complex.normSq).symm)
  valid_after _ _ := trivial
  record _ _ weighed := weighed
  keep _ _ known := known
  reuse _ _ _ known := known

/-- The weights of nodes apart from their topmost scales; with a node those of its
branches are known. -/
structure Measures (s : NodeStore ℝ) (weights : Std.HashMap NodeId ℝ) : Prop where
  closed : s.Closed weights
  weight : ∀ id weight, weights[id]? = some weight → s.isZero id = false →
    weight = ((s.unfold id).withScale 1).weight

/-- With the weight of a node those of its branches are known. -/
theorem closed_subtreeWeights (ordered : t.store.Ordered) : t.store.Closed t.subtreeWeights := by
  have start : t.store.Closed (Progress.start () : Progress Unit ℝ).finished :=
    fun id member => absurd member Std.HashMap.not_mem_empty
  exact (start.walk ordered (fun depth _ _ _ branches =>
    ⟨_, (weightVisit_folds t.store).fork_eq branches depth⟩) 0 t.root).1

theorem root_mem_subtreeWeights (nonzero : t.store.isZero t.root = false) :
    t.root ∈ t.subtreeWeights := by
  obtain ⟨weight, found⟩ := t.store.walk_finished 0 (weightVisit t.store) 0 nonzero (.start ())
  exact Std.HashMap.mem_iff_isSome_getElem?.mpr (by rw [subtreeWeights, found]; rfl)

theorem measures_subtreeWeights (ordered : t.store.Ordered) :
    Measures t.store t.subtreeWeights := by
  obtain ⟨-, remembers⟩ : _ ∧ NodeStore.Remembers _ (t.store.walk 0 _ 0 t.root _).2 :=
    (weigh_contract ordered).walk trivial trivial (NodeStore.Remembers.start _ ())
  exact ⟨closed_subtreeWeights ordered, remembers⟩

/-- The weight of a branch times that of its subtree is the weight of the whole. -/
theorem Measures.weight_mul (measures : Measures s weights) {child : NodeId}
    (known : s.isZero child = false → child ∈ weights) :
    s.weight child * weights.getD child 0 = (s.unfold child).weight := by
  have weighed (nonzero : s.isZero child = false) :
      weights.getD child 0 = ((s.unfold child).withScale 1).weight :=
    measures.weight child _ (Std.HashMap.getElem?_eq_some_getD (known nonzero)) nonzero
  rw [weight_mul_congr weighed, ← Unfolding.weight_eq_scale_mul]

/-- The squared norm of a tree is its weight. -/
theorem normSq_eq_weight (ordered : t.store.Ordered) : t.normSq = t.unfold.weight :=
  (measures_subtreeWeights ordered).weight_mul root_mem_subtreeWeights

/-! ## Masses of a level -/

noncomputable def weighted (level : Std.HashMap NodeId ℝ) (f : NodeId → ℝ) : ℝ :=
  (level.toList.map fun entry => entry.2 * f entry.1).sum

noncomputable def spread (s : NodeStore ℝ) (f : NodeId → ℝ) (id : NodeId) : ℝ :=
  match (s.get id).branches with
  | none => 0
  | some (low, high) => s.weight low * f low + s.weight high * f high

theorem weighted_insert (level : Std.HashMap NodeId ℝ) (id : NodeId) (x : ℝ) (f : NodeId → ℝ) :
    weighted (level.insert id (level.getD id 0 + x)) f = weighted level f + x * f id := by
  let others := level.toList.filter fun entry => ¬(id == entry.1) = true
  have inserted (value : ℝ) : weighted (level.insert id value) f =
      value * f id + (others.map fun entry => entry.2 * f entry.1).sum := by
    rw [weighted, (Std.HashMap.toList_insert_perm.map _).sum_eq, List.map_cons, List.sum_cons]
  have whole : weighted level f =
      level.getD id 0 * f id + (others.map fun entry => entry.2 * f entry.1).sum := by
    rw [Std.HashMap.getD_eq_getD_getElem?]
    cases found : level[id]? with
    | none =>
        have all : others = level.toList := by
          refine List.filter_eq_self.mpr fun entry member => decide_eq_true fun same => ?_
          have stored := Std.HashMap.mem_toList_iff_getElem?_eq_some.mp member
          rw [← eq_of_beq same, found] at stored
          cases stored
        rw [Option.getD_none, zero_mul, zero_add, all, weighted]
    | some value =>
        have same : (level.insert id value).Equiv level := by
          refine .of_forall_getElem?_eq fun other => ?_
          rw [Std.HashMap.getElem?_insert]
          split
          · next here => rw [← eq_of_beq here, found]
          · rfl
        rw [Option.getD_some, ← inserted, weighted, weighted, (same.toList_perm.map _).sum_eq]
  rw [inserted, whole]
  ring

theorem weighted_singleton (id : NodeId) (mass : ℝ) (f : NodeId → ℝ) :
    weighted ((∅ : Std.HashMap NodeId ℝ).insert id mass) f = mass * f id := by
  have inserted := weighted_insert ∅ id mass f
  rw [Std.HashMap.getD_empty, zero_add] at inserted
  rw [inserted, weighted, Std.HashMap.toList_empty, List.map_nil, List.sum_nil, zero_add]

/-- Whether a branch counts for nothing or takes its share of the mass, its weight tells. -/
theorem weighted_branch (level : Std.HashMap NodeId ℝ) (child : NodeId) (mass : ℝ)
    (f : NodeId → ℝ) :
    weighted (if s.isZero child then level
      else level.insert child (level.getD child 0 + mass * (s.get child).scale.normSq)) f =
        weighted level f + mass * (s.weight child * f child) := by
  unfold NodeStore.weight NodeStore.scale
  cases s.isZero child with
  | true => simp [Amplitude.normSq_eq]
  | false =>
      rw [if_neg Bool.false_ne_true, if_neg Bool.false_ne_true, weighted_insert, mul_assoc]

theorem weighted_spreadMass (level : Std.HashMap NodeId ℝ) (id : NodeId) (mass : ℝ)
    (f : NodeId → ℝ) :
    weighted (spreadMass s level id mass) f = weighted level f + mass * spread s f id := by
  unfold spreadMass spread
  cases (s.get id).branches with
  | none => exact (add_eq_left.mpr (mul_zero mass)).symm
  | some pair =>
      dsimp only
      rw [List.foldl_cons, List.foldl_cons, List.foldl_nil, weighted_branch, weighted_branch]
      ring

/-- The masses some levels below, summed up with a function, are those of the given level. -/
theorem weighted_massBelow (s : NodeStore ℝ) (steps : ℕ) (level : Std.HashMap NodeId ℝ)
    (f : NodeId → ℝ) :
    weighted (massBelow s steps level) f = weighted level ((spread s)^[steps] f) := by
  induction steps generalizing level with
  | zero => rfl
  | succ steps ih =>
      have folded (entries : List (NodeId × ℝ)) (start : Std.HashMap NodeId ℝ) (f : NodeId → ℝ) :
          weighted (entries.foldl (fun level entry => spreadMass s level entry.1 entry.2) start) f =
            weighted start f + (entries.map fun entry => entry.2 * spread s f entry.1).sum := by
        induction entries generalizing start with
        | nil => exact (add_zero _).symm
        | cons entry entries ih =>
            rw [List.foldl_cons, ih, weighted_spreadMass, List.map_cons, List.sum_cons, add_assoc]
      have empty (f : NodeId → ℝ) : weighted ∅ f = 0 := by
        rw [weighted, Std.HashMap.toList_empty, List.map_nil, List.sum_nil]
      rw [massBelow, ih, Std.HashMap.fold_eq_foldl_toList, folded, empty, zero_add,
        Function.iterate_succ_apply']
      rfl

/-- What a node adds to the mass for a value of its qubit, per unit of mass. -/
noncomputable def branchShare (s : NodeStore ℝ) (weights : Std.HashMap NodeId ℝ) (value : Bool)
    (id : NodeId) : ℝ :=
  match (s.get id).branches with
  | none => 0
  | some (low, high) =>
      s.weight (if value then high else low) * weights.getD (if value then high else low) 0

theorem fold_splitMass (s : NodeStore ℝ) (weights level : Std.HashMap NodeId ℝ) :
    level.fold (splitMass s weights) (0, 0) =
      (weighted level (branchShare s weights false), weighted level (branchShare s weights true)) := by
  have folded (entries : List (NodeId × ℝ)) (masses : ℝ × ℝ) :
      entries.foldl (fun masses entry => splitMass s weights masses entry.1 entry.2) masses =
        (masses.1 + (entries.map fun entry => entry.2 * branchShare s weights false entry.1).sum,
         masses.2 + (entries.map fun entry => entry.2 * branchShare s weights true entry.1).sum) := by
    induction entries generalizing masses with
    | nil => simp
    | cons entry entries ih =>
        have here : splitMass s weights masses entry.1 entry.2 =
            (masses.1 + entry.2 * branchShare s weights false entry.1,
             masses.2 + entry.2 * branchShare s weights true entry.1) := by
          unfold splitMass branchShare
          cases (s.get entry.1).branches <;> simp [mul_assoc]
        rw [List.foldl_cons, ih, here]
        simp only [List.map_cons, List.sum_cons, add_assoc]
  rw [Std.HashMap.fold_eq_foldl_toList, folded, zero_add, zero_add]
  rfl

/-- The mass for a value of a qubit that lies some levels below a node. -/
theorem Measures.iterate_spread (measures : Measures s weights) (ordered : s.Ordered) (value : Bool)
    {id : NodeId} (known : s.isZero id = false → id ∈ weights) (steps : ℕ) :
    s.weight id * (spread s)^[steps] (branchShare s weights value) id =
      (s.unfold id).part value steps := by
  induction steps generalizing id with
  | zero =>
      rw [weight_eq]
      cases empty : s.isZero id with
      | true => rw [NodeStore.unfold_of_isZero empty, Unfolding.scale_zero, map_zero, zero_mul,
          Unfolding.part_zero]
      | false =>
          cases branches : (s.get id).branches with
          | none =>
              rw [NodeStore.unfold_of_leaf empty branches, Function.iterate_zero_apply, branchShare,
                branches]
              exact mul_zero _
          | some pair =>
              obtain ⟨low, high⟩ := pair
              obtain ⟨lowKnown, highKnown⟩ := measures.closed id (known empty) low high branches
              rw [ordered.unfold_of_branches empty branches, Unfolding.part,
                Function.iterate_zero_apply, branchShare, branches]
              cases value with
              | false => exact congrArg (_ * ·) (measures.weight_mul lowKnown)
              | true => exact congrArg (_ * ·) (measures.weight_mul highKnown)
  | succ steps ih =>
      rw [weight_eq]
      cases empty : s.isZero id with
      | true => rw [NodeStore.unfold_of_isZero empty, Unfolding.scale_zero, map_zero, zero_mul,
          Unfolding.part_zero]
      | false =>
          rw [Function.iterate_succ_apply', spread]
          cases branches : (s.get id).branches with
          | none =>
              rw [NodeStore.unfold_of_leaf empty branches]
              exact mul_zero _
          | some pair =>
              obtain ⟨low, high⟩ := pair
              obtain ⟨lowKnown, highKnown⟩ := measures.closed id (known empty) low high branches
              rw [ordered.unfold_of_branches empty branches, Unfolding.part]
              exact congrArg (_ * ·) (congrArg₂ (· + ·) (ih lowKnown) (ih highKnown))

/-! ## Norms and probabilities -/

theorem mass_projected_add (width qubit : ℕ) (state : Assignment → ℂ) :
    mass width (projected qubit false state) + mass width (projected qubit true state) =
      mass width state := by
  rw [mass, mass, mass, ← summed_add]
  congr 1
  funext bits
  unfold projected
  cases bits qubit <;> simp

theorem clampUnit_eq {x : ℝ} (lower : 0 ≤ x) (upper : x ≤ 1) : Scalar.clampUnit x = x := by
  unfold Scalar.clampUnit
  rw [if_neg (by simpa using lower), if_neg (by simpa using upper)]

section

variable (ordered : t.store.Ordered) (deep : t.unfold.Deep t.width)

include ordered deep

theorem mass_state_of_deep : mass t.width t.state = t.normSq := by
  rw [normSq_eq_weight ordered, mass, List.range_eq_range']
  exact deep.summed_weight 0 _

omit ordered in
theorem mass_projected_of_deep {qubit : ℕ} (inside : qubit < t.width) (value : Bool) :
    mass t.width (projected qubit value t.state) = t.unfold.part value qubit := by
  have summed := deep.summed_part value 0 inside fun _ => false
  rw [zero_add] at summed
  rw [mass, List.range_eq_range']
  exact summed

/-- The probability of a qubit is the part of the weight where it reads 1. -/
theorem prob_eq_of_deep (qubit : ℕ) :
    t.prob qubit = t.unfold.part true qubit / t.unfold.weight := by
  unfold prob
  dsimp only
  cases empty : t.store.isZero t.root with
  | true =>
      rw [isZero_iff_unfold_eq.mp empty, Unfolding.part_zero, zero_div]
      rfl
  | false =>
      have measures := measures_subtreeWeights ordered
      have masses (value : Bool) :
          weighted (massBelow t.store qubit ((∅ : Std.HashMap NodeId ℝ).insert t.root
              (t.store.get t.root).scale.normSq)) (branchShare t.store t.subtreeWeights value) =
            t.unfold.part value qubit := by
        rw [weighted_massBelow, weighted_singleton, ← NodeStore.scale_eq_of_not_isZero empty]
        exact measures.iterate_spread ordered value root_mem_subtreeWeights qubit
      rw [if_neg Bool.false_ne_true, fold_splitMass, masses, masses]
      dsimp only
      by_cases inside : qubit < t.width
      · have total : t.unfold.part false qubit + t.unfold.part true qubit = t.unfold.weight :=
          deep.part_add inside
        rw [total]
        split
        · next weightless =>
            rw [Scalar.le_iff] at weightless
            rw [le_antisymm weightless (Unfolding.weight_nonneg _), div_zero]
        · next positive =>
            rw [Scalar.le_iff, not_le] at positive
            exact clampUnit_eq (div_nonneg (Unfolding.part_nonneg ..) positive.le)
              ((div_le_one positive).mpr (total ▸ le_add_of_nonneg_left (Unfolding.part_nonneg ..)))
      · have none (value : Bool) : t.unfold.part value qubit = 0 :=
          deep.part_eq_zero (Nat.le_of_not_lt inside) value
        rw [none, none, add_zero, if_pos ((Scalar.le_iff _ _).mpr (le_refl 0)), zero_div]

end

/-! ## Canonical trees -/

/-- The squared norm of the state of a canonical tree. -/
theorem Sound.mass_state (sound : t.Sound True) :
    mass t.width t.state = Complex.normSq t.unfold.scale := by
  rw [mass, List.range_eq_range']
  exact sound.regular.summed_normSq 0 _

/-- The squared norm is the squared modulus of the scale of the root. -/
theorem Sound.normSq_eq (sound : t.Sound True) : t.normSq = Complex.normSq t.unfold.scale := by
  rw [normSq_eq_weight sound.exact.toOrdered, sound.regular.weight_eq]

/-- A state has a positive norm if and only if its root has amplitude. -/
theorem Sound.normSq_pos_iff (sound : t.Sound True) :
    0 < t.normSq ↔ t.store.isZero t.root = false := by
  rw [sound.normSq_eq, Complex.normSq_pos]
  constructor
  · intro scaled
    by_contra empty
    rw [Bool.not_eq_false] at empty
    exact scaled (by rw [isZero_iff_unfold_eq.mp empty, Unfolding.scale_zero])
  · exact fun nonzero => sound.regular.scale_ne_zero (NodeStore.unfold_ne_zero.mpr nonzero)

/-- The probability of a qubit is the part of the squared norm where it reads 1. -/
theorem Sound.prob_eq (sound : t.Sound True) {qubit : ℕ} (inside : qubit < t.width) :
    t.prob qubit = mass t.width (projected qubit true t.state) / mass t.width t.state := by
  have ordered := sound.exact.toOrdered
  have deep := sound.regular.deep
  rw [prob_eq_of_deep ordered deep, mass_projected_of_deep deep inside,
    mass_state_of_deep ordered deep, normSq_eq_weight ordered]

/-! ## Draws -/

/-- Draws below two nodes agree if the nodes have one shape. -/
theorem Measures.sampleFrom_eq {γ : Type} {s' : NodeStore ℝ} {weights' : Std.HashMap NodeId ℝ}
    (measures : Measures s weights) (measures' : Measures s' weights') (ordered : s.Ordered)
    (ordered' : s'.Ordered) (draw : γ → ℝ × γ) (levels qubit : ℕ) {id id' : NodeId}
    (shape : (s.unfold id).withScale 1 = (s'.unfold id').withScale 1)
    (known : s.isZero id = false → id ∈ weights) (known' : s'.isZero id' = false → id' ∈ weights')
    (index : BasisIndex) (source : γ) :
    sampleFrom s weights draw levels qubit id index source =
      sampleFrom s' weights' draw levels qubit id' index source := by
  induction levels generalizing qubit id id' index source with
  | zero => rfl
  | succ levels ih =>
      have zeros : s.isZero id = s'.isZero id' := by
        rw [Bool.eq_iff_iff, ← NodeStore.unfold_eq_zero, ← NodeStore.unfold_eq_zero,
          ← Unfolding.withScale_eq_zero (c := 1), shape, Unfolding.withScale_eq_zero]
      rw [sampleFrom, sampleFrom, ← zeros]
      cases nonzero : s.isZero id with
      | true => rfl
      | false =>
          have nonzero' := zeros.symm.trans nonzero
          rw [if_neg Bool.false_ne_true, if_neg Bool.false_ne_true]
          cases branches : (s.get id).branches with
          | none =>
              rw [NodeStore.unfold_of_leaf nonzero branches] at shape
              cases other : s'.unfold id' with
              | leaf c =>
                  rw [(ordered'.of_unfold_leaf other).2]
                  rfl
              | zero | fork => rw [other] at shape; cases shape
          | some pair =>
              obtain ⟨low, high⟩ := pair
              rw [ordered.unfold_of_branches nonzero branches] at shape
              cases other : s'.unfold id' with
              | zero | leaf => rw [other] at shape; cases shape
              | fork c u v =>
                  rw [other] at shape
                  obtain ⟨_, low', high', node, rfl, rfl⟩ := ordered'.of_unfold_fork other
                  have branches' := congrArg Node.branches node
                  obtain ⟨-, lowSame, highSame⟩ := Unfolding.fork.inj shape
                  obtain ⟨lowKnown, highKnown⟩ := measures.closed id (known nonzero) low high branches
                  obtain ⟨lowKnown', highKnown'⟩ :=
                    measures'.closed id' (known' nonzero') low' high' branches'
                  have lowMass : s.weight low * weights.getD low 0 =
                      s'.weight low' * weights'.getD low' 0 := by
                    rw [measures.weight_mul lowKnown, measures'.weight_mul lowKnown', lowSame]
                  have highMass : s.weight high * weights.getD high 0 =
                      s'.weight high' * weights'.getD high' 0 := by
                    rw [measures.weight_mul highKnown, measures'.weight_mul highKnown', highSame]
                  rw [branches']
                  dsimp only
                  rw [lowMass, highMass,
                    ih (qubit + 1) (congrArg _ lowSame) lowKnown lowKnown' index _,
                    ih (qubit + 1) (congrArg _ highSame) highKnown highKnown' (index ||| .power qubit) _]

/-- Trees with proportional states draw the same basis states. -/
theorem Sound.sample_eq {γ : Type} {t' : Tree ℝ} (sound : t.Sound True) (sound' : t'.Sound True)
    (widths : t'.width = t.width) {factor : ℂ} (scaled : factor ≠ 0)
    (states : t'.state = factor • t.state) (draw : γ → ℝ × γ) (source : γ) :
    t'.sample draw source = t.sample draw source := by
  have measures := measures_subtreeWeights sound.exact.toOrdered
  have measures' := measures_subtreeWeights sound'.exact.toOrdered
  obtain ⟨shape, -⟩ := sound'.regular.proportional (widths ▸ sound.regular) scaled (congrFun states)
  unfold sample
  rw [widths]
  exact measures'.sampleFrom_eq measures sound'.exact.toOrdered sound.exact.toOrdered draw _ 0 shape
    root_mem_subtreeWeights root_mem_subtreeWeights 0 source

end Tree

end AmplitudeTree
