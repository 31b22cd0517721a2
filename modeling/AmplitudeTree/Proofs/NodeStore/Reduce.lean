import AmplitudeTree.Proofs.NodeStore.Compare
import AmplitudeTree.Proofs.NodeStore.Merging

/-!
# Reduction of exact stores

In a reduced exact store no two nodes have one unfolding.  So the position of a node is determined
by its unfolding, and the store that a reduction builds is determined by the unfolding of the root.
-/

namespace AmplitudeTree.NodeStore

namespace Reduction

variable {r : Reduction ℝ} {canonical : Prop} {levels : ℕ} {u : Unfolding} {id : NodeId}

/-- No node is stored twice, none is superfluous, and every node is listed in its cell. -/
structure Valid (r : Reduction ℝ) : Prop where
  exact : r.store.Exact
  member : ∀ {cell id}, id ∈ r.members cell →
    0 < id ∧ id < r.store.size ∧ r.cell (r.store.get id) = cell
  listed : ∀ {id}, 0 < id → id < r.store.size → id ∈ r.members (r.cell (r.store.get id))
  scaled : ∀ {id}, 0 < id → id < r.store.size → (r.store.get id).scale.toComplex ≠ 0
  forked : ∀ {id}, (r.store.get id).branches ≠ some (0, 0)
  distinct : ∀ {id other}, 0 < id → id < r.store.size → 0 < other → other < r.store.size →
    r.store.get id = r.store.get other → id = other

/-- Nodes of one cell that agree up to a negligible amount are equal. -/
theorem Valid.eq_of_near (valid : r.Valid) {node other : Node ℝ} (cells : r.cell node = r.cell other)
    (near : r.store.negligible (node.scale - other.scale) = true) : node = other := by
  rw [valid.exact.negligible_iff, Amplitude.toComplex_sub, sub_eq_zero,
    Amplitude.toComplex_inj] at near
  exact eq_of_cell_of_scale cells near

theorem Valid.indexed (valid : r.Valid) : r.Indexed where
  ordered := valid.exact.toOrdered
  nonneg := valid.exact.threshold_eq.ge
  member := valid.member
  listed := valid.listed
  substantial positive stored := valid.exact.negligible_eq_false.mpr (valid.scaled positive stored)
  forked := valid.forked
  apart {id other} positive less stored cells := by
    rw [← Bool.not_eq_true]
    intro near
    have same := valid.eq_of_near cells near
    exact less.ne (valid.distinct positive (less.trans stored) (positive.trans less) stored same)

/-- With the threshold zero nodes that differ have different scales or different branches. -/
theorem Indexed.valid (indexed : r.Indexed) (exact : r.store.Exact) : r.Valid where
  exact := exact
  member := indexed.member
  listed := indexed.listed
  scaled positive stored := exact.negligible_eq_false.mp (indexed.substantial positive stored)
  forked := indexed.forked
  distinct {id other} positive stored otherPositive otherStored same := by
    have unequal {id other : NodeId} (positive : 0 < id) (less : id < other)
        (stored : other < r.store.size) : r.store.get id ≠ r.store.get other := fun same => by
      have apart := indexed.apart positive less stored (by rw [same])
      rw [same, exact.negligible_eq_false, Amplitude.toComplex_sub, sub_self] at apart
      exact apart rfl
    rcases lt_trichotomy id other with less | same' | less
    · exact absurd same (unequal positive less otherStored)
    · exact same'
    · exact absurd same.symm (unequal otherPositive less stored)

noncomputable def start : Reduction ℝ := ⟨.empty 0, ∅⟩

theorem Valid.start : start.Valid := (Indexed.empty (le_refl 0)).valid .empty

theorem Valid.isZero_iff (valid : r.Valid) (stored : id < r.store.size) :
    r.store.isZero id = true ↔ id = 0 :=
  valid.indexed.isZero_iff stored

/-- Merging a node that is stored already returns it. -/
theorem Valid.merge_of_stored (valid : r.Valid) {node : Node ℝ} (positive : 0 < id)
    (stored : id < r.store.size) (found : r.store.get id = node) : r.merge node = (id, r) := by
  have placed := valid.indexed.merge_placed node
  generalize r.merge node = result at placed
  cases placed with
  | found otherPositive otherStored cells near =>
      have same := valid.eq_of_near cells near
      rw [valid.distinct otherPositive otherStored positive stored (same.trans found.symm)]
  | appended novel =>
      have different := novel id positive stored (by rw [found])
      rw [found, valid.exact.negligible_eq_false, Amplitude.toComplex_sub, sub_self] at different
      exact absurd rfl different

structure Stores (r : Reduction ℝ) (result : NodeId × Reduction ℝ) (node : Node ℝ) : Prop where
  growth : r.store.Extends result.2.store
  valid : result.2.Valid
  positive : 0 < result.1
  stored : result.1 < result.2.store.size
  found : result.2.store.get result.1 = node

theorem Valid.merge (valid : r.Valid) (node : Node ℝ) (scaled : node.scale.toComplex ≠ 0)
    (forked : node.branches ≠ some (0, 0))
    (below : ∀ low high, node.branches = some (low, high) →
      low < r.store.size ∧ high < r.store.size) : r.Stores (r.merge node) node := by
  have placed := valid.indexed.merge_placed node
  generalize r.merge node = result at placed
  cases placed with
  | found positive stored cells near =>
      exact ⟨.refl _, valid, positive, stored, valid.eq_of_near cells near⟩
  | appended novel =>
      have appended := valid.indexed.append (valid.exact.negligible_eq_false.mpr scaled) forked
        below novel
      exact ⟨r.extends_append node, appended.valid (valid.exact.push below), valid.exact.nonempty,
        by simp, r.get_append node⟩

/-! ## Adding an unfolding -/

/-- Stores an unfolding from the leaves up, the branch for 0 first. -/
noncomputable def add : Unfolding → Reduction ℝ → NodeId × Reduction ℝ
  | .zero, r => (0, r)
  | .leaf c, r => r.merge (.leaf (.ofComplex c))
  | .fork c low high, r =>
      let (low, r) := add low r
      let (high, r) := add high r
      if low == 0 && high == 0 then (0, r) else r.merge ⟨.ofComplex c, some (low, high)⟩

/-- What adding an unfolding ensures: it is the unfolding of the node returned. -/
structure Adds (r : Reduction ℝ) (result : NodeId × Reduction ℝ) (u : Unfolding) : Prop where
  growth : r.store.Extends result.2.store
  valid : result.2.Valid
  stored : result.1 < result.2.store.size
  unfold : result.2.store.unfold result.1 = u

theorem Stores.isZero_eq {result : NodeId × Reduction ℝ} {node : Node ℝ}
    (stores : r.Stores result node) : result.2.store.isZero result.1 = false := by
  rw [← Bool.not_eq_true, stores.valid.isZero_iff stores.stored]
  exact stores.positive.ne'

/-- An unfolding that is stored already is found. -/
theorem Valid.add_of_unfold (valid : r.Valid) (stored : id < r.store.size)
    (found : r.store.unfold id = u) : r.add u = (id, r) := by
  induction u generalizing id with
  | zero =>
      rw [unfold_eq_zero, valid.isZero_iff stored] at found
      rw [found, Reduction.add]
  | leaf c =>
      obtain ⟨nonzero, node⟩ := valid.exact.of_unfold_leaf found
      have positive : 0 < id := Nat.pos_of_ne_zero fun zero => by
        rw [(valid.isZero_iff stored).mpr zero] at nonzero
        cases nonzero
      exact valid.merge_of_stored positive stored node
  | fork c u v ihLow ihHigh =>
      obtain ⟨nonzero, low, high, node, lowFound, highFound⟩ := valid.exact.of_unfold_fork found
      have positive : 0 < id := Nat.pos_of_ne_zero fun zero => by
        rw [(valid.isZero_iff stored).mpr zero] at nonzero
        cases nonzero
      have branches : (r.store.get id).branches = some (low, high) := by rw [node]
      obtain ⟨lowLt, highLt⟩ := valid.exact.branches_lt branches
      have forked : ¬(low == 0 && high == 0) = true := by
        rw [Bool.and_eq_true, beq_iff_eq, beq_iff_eq]
        rintro ⟨rfl, rfl⟩
        exact valid.forked branches
      rw [Reduction.add, ihLow (lowLt.trans stored) lowFound]
      dsimp only
      rw [ihHigh (highLt.trans stored) highFound]
      dsimp only
      rw [if_neg forked]
      exact valid.merge_of_stored positive stored node

/-- No two nodes of a reduced store have one unfolding. -/
theorem Valid.unfold_injective (valid : r.Valid) {other : NodeId} (stored : id < r.store.size)
    (otherStored : other < r.store.size) (same : r.store.unfold id = r.store.unfold other) :
    id = other := by
  have found := valid.add_of_unfold stored rfl
  rw [same, valid.add_of_unfold otherStored rfl] at found
  exact (congrArg Prod.fst found).symm

/-- A node over two branches that are stored, at least one of which is not zero. -/
theorem Valid.add_fork (valid : r.Valid) {c : Amplitude ℝ} (scaled : c.toComplex ≠ 0)
    {low high : NodeId} (lowStored : low < r.store.size) (highStored : high < r.store.size)
    (some : r.store.unfold low ≠ .zero ∨ r.store.unfold high ≠ .zero) :
    r.Adds (if low == 0 && high == 0 then (0, r) else r.merge ⟨c, Option.some (low, high)⟩)
      (.fork c.toComplex (r.store.unfold low) (r.store.unfold high)) := by
  have forked : ¬(low == 0 && high == 0) = true := by
    rw [Bool.and_eq_true, beq_iff_eq, beq_iff_eq]
    rintro ⟨rfl, rfl⟩
    exact some.elim (fun nonzero => nonzero (unfold_zero _)) fun nonzero => nonzero (unfold_zero _)
  rw [if_neg forked]
  have stores := valid.merge ⟨c, Option.some (low, high)⟩ scaled (by simpa using forked)
    (by rintro _ _ ⟨⟩; exact ⟨lowStored, highStored⟩)
  refine ⟨stores.growth, stores.valid, stores.stored, ?_⟩
  rw [stores.valid.exact.unfold_of_branches stores.isZero_eq (by rw [stores.found]), stores.found,
    stores.growth.unfold_eq lowStored, stores.growth.unfold_eq highStored]

theorem Valid.add (valid : r.Valid) (regular : u.Regular canonical levels) :
    r.Adds (r.add u) u := by
  induction u generalizing r levels with
  | zero => exact ⟨.refl _, valid, valid.exact.nonempty, unfold_zero _⟩
  | leaf c =>
      cases levels with
      | zero =>
          have stores := valid.merge (.leaf (.ofComplex c)) regular
            (fun impossible => by cases impossible) (fun _ _ impossible => by cases impossible)
          refine ⟨stores.growth, stores.valid, stores.stored, ?_⟩
          exact (unfold_of_leaf stores.isZero_eq (by rw [stores.found]; rfl)).trans
            (by rw [stores.found]; rfl)
      | succ => exact regular.elim
  | fork c u v ihLow ihHigh =>
      cases levels with
      | zero => exact regular.elim
      | succ levels =>
          obtain ⟨scaled, some, lowRegular, highRegular, _⟩ := regular
          have low := ihLow valid lowRegular
          have high := ihHigh low.valid highRegular
          have lowUnfold := (high.growth.unfold_eq low.stored).trans low.unfold
          have forked := high.valid.add_fork (c := .ofComplex c) scaled
            (low.stored.trans_le high.growth.size_le) high.stored
            (by rwa [lowUnfold, high.unfold])
          rw [lowUnfold, high.unfold] at forked
          exact ⟨low.growth.trans (high.growth.trans forked.growth), forked.valid, forked.stored,
            forked.unfold⟩

end Reduction

/-! ## Reduction -/

variable {s : NodeStore ℝ} {canonical : Prop} {levels : ℕ} {root : NodeId}

/-- A reduction adds the unfoldings of the nodes that it visits. -/
theorem Exact.reduce_contract (exact : s.Exact) (canonical : Prop) :
    s.Contract 0 s.reduceVisit (fun _ id => ∃ levels, (s.unfold id).Regular canonical levels)
      Reduction.Valid (fun r r' => r.store.Extends r'.store)
      (fun _ id r value r' =>
        r.add (s.unfold id) = (value, r') ∧ r.Adds (value, r') (s.unfold id))
      (fun id value r => value < r.store.size ∧ r.store.unfold value = s.unfold id) where
  zero met empty valid := by
    rw [unfold_of_isZero empty]
    exact ⟨rfl, .refl _, valid, valid.exact.nonempty, unfold_zero _⟩
  answer {depth id r result} met nonzero visited valid := by
    obtain ⟨levels, regular⟩ := met
    have adds := valid.add regular
    obtain ⟨leaf, rfl⟩ := s.reduceVisit_folds.eq_answer visited
    have merged : r.merge (s.get id) = r.add (s.unfold id) := by
      rw [unfold_of_leaf nonzero leaf, Reduction.add, Node.leaf, Amplitude.ofComplex_toComplex, ← leaf]
    dsimp only
    rw [merged]
    exact ⟨adds.growth, rfl, adds⟩
  descend {depth id given given' combine} met nonzero visited := by
    obtain ⟨levels, regular⟩ := met
    obtain ⟨low, high, branches, rfl, rfl, rfl⟩ := s.reduceVisit_folds.eq_descend visited
    have unfolded := exact.unfold_of_branches nonzero branches
    have scaled : (s.get id).scale.toComplex ≠ 0 := by
      rw [scale_of_not_isZero nonzero]
      exact regular.scale_ne_zero (unfold_ne_zero.mpr nonzero)
    rw [unfolded] at regular ⊢
    cases levels with
    | zero => exact regular.elim
    | succ levels =>
        obtain ⟨_, some, lowRegular, highRegular, _⟩ := regular
        refine ⟨_, exact.children_eq branches, fun _ => ⟨levels, lowRegular⟩,
          fun _ => ⟨levels, highRegular⟩, ?_⟩
        intro before lowValue between highValue after _ _ valid lowAdded highAdded
        obtain ⟨lowEq, low⟩ := lowAdded
        obtain ⟨highEq, high⟩ := highAdded
        have lowUnfold := (high.growth.unfold_eq low.stored).trans low.unfold
        have forked := valid.add_fork scaled
          (low.stored.trans_le high.growth.size_le) high.stored
          (by rwa [lowUnfold, high.unfold])
        rw [lowUnfold, high.unfold] at forked
        refine ⟨forked.growth, ?_, low.growth.trans (high.growth.trans forked.growth),
          forked.valid, forked.stored, forked.unfold⟩
        rw [Reduction.add, lowEq]
        dsimp only
        rw [highEq, Amplitude.ofComplex_toComplex]
  valid_after _ post := post.2.valid
  record _ _ post := ⟨post.2.stored, post.2.unfold⟩
  keep _ growth known :=
    ⟨known.1.trans_le growth.size_le, (growth.unfold_eq known.1).trans known.2⟩
  reuse _ _ valid known :=
    ⟨valid.add_of_unfold known.1 known.2, .refl _, valid, known.1, known.2⟩

/-- A reduction adds the unfolding of the root to an empty store. -/
theorem Exact.reduce_eq (exact : s.Exact) (regular : (s.unfold root).Regular canonical levels) :
    s.reduce root = ((Reduction.start.add (s.unfold root)).2.store,
      (Reduction.start.add (s.unfold root)).1) := by
  have walked : Reduction.start.add (s.unfold root) =
      s.walkFrom 0 s.reduceVisit 0 root Reduction.start :=
    ((exact.reduce_contract canonical).walkFrom ⟨levels, regular⟩ _ Reduction.Valid.start).1
  rw [walked, reduce, exact.threshold_eq]
  rfl

/-- A reduced store keeps the unfolding of its root, and no two nodes have one unfolding. -/
theorem Exact.reduce (exact : s.Exact) (regular : (s.unfold root).Regular canonical levels) :
    let result := s.reduce root
    result.1.Exact ∧ result.2 < result.1.size ∧
      (result.1.isZero result.2 = true → result.2 = 0) ∧
      result.1.unfold result.2 = s.unfold root ∧
      ∀ id other, id < result.1.size → other < result.1.size →
        result.1.unfold id = result.1.unfold other → id = other := by
  have adds := Reduction.Valid.start.add regular
  rw [exact.reduce_eq regular]
  exact ⟨adds.valid.exact, adds.stored, (adds.valid.isZero_iff adds.stored).mp, adds.unfold,
    fun _ _ stored otherStored same => adds.valid.unfold_injective stored otherStored same⟩

/-! ## Copies -/

theorem copyVisit_folds {R : Type} [Scalar R] (s : NodeStore R) :
    s.Folds s.copyVisit (fun id t => t.push (s.get id)) fun id _ _ low high t =>
      t.push ⟨(s.get id).scale, some (low, high)⟩ where
  leaf_eq leaf _ := by rw [copyVisit, leaf]
  fork_eq branches _ := by rw [copyVisit, branches]

/-- A copy has the unfolding of the node that was copied. -/
theorem Exact.copy_appends (exact : s.Exact) (canonical : Prop) (width : ℕ) (base : NodeStore ℝ) :
    s.Appends base s.copyVisit (s.OnLevel canonical width) fun _ id u => u = s.unfold id where
  level_unique := OnLevel.unique
  zero _ empty := (unfold_of_isZero empty).symm
  answer {depth id result t} met nonzero visited _ valid := by
    obtain ⟨leaf, rfl⟩ := s.copyVisit_folds.eq_answer visited
    dsimp only
    rw [get_eq_leaf leaf, unfold_of_leaf nonzero leaf]
    exact valid.push_leaf (met.scale_ne_zero nonzero)
  descend {depth id given given' combine} met nonzero visited := by
    obtain ⟨_, _, branches, rfl, rfl, rfl⟩ := s.copyVisit_folds.eq_descend visited
    obtain ⟨_, lowMet, highMet⟩ := met.branches exact.toOrdered nonzero branches
    refine ⟨_, exact.children_eq branches, fun _ => lowMet, fun _ => highMet, ?_⟩
    intro t low high _ valid lowCopied highCopied
    rw [exact.unfold_of_branches nonzero branches, ← lowCopied.2, ← highCopied.2]
    exact valid.push_fork (met.scale_ne_zero nonzero) lowCopied.1 highCopied.1

/-- A copy has the unfolding of its root, in a store that extends the one copied to. -/
theorem Exact.copyFrom {t : NodeStore ℝ} (valid : t.Exact) (exact : s.Exact)
    (onLevel : s.OnLevel canonical levels 0 root) :
    t.Yields ((t.copyFrom s root).1, (t.copyFrom s root).2.state) (· = s.unfold root) :=
  (exact.copy_appends canonical levels t).walkFrom onLevel (.refl t) valid

end AmplitudeTree.NodeStore
