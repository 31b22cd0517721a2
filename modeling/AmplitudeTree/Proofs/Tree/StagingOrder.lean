import AmplitudeTree.Proofs.Tree.StagedAmplitudes

/-!
# The order in which amplitudes are stored

The slot that a branch gets depends on what has been stored before.  Still no slot is given to two
places of a staging tree, a place keeps the slot that it has got, and the slots do not run out.  The
tree that is built depends on the stored amplitudes alone, so it is the same for every order.
-/

namespace AmplitudeTree

namespace StagingTree

variable {R : Type} {t t' : StagingTree R} {index other : BasisIndex}
  {width depth levels slot slot' first : ℕ}

/-! ## Places and slots -/

/-- A laid out tree in which branches get their slots after the node that they belong to. -/
structure Handed (t : StagingTree R) (width : ℕ) : Prop extends Laid t width where
  forward : ∀ slot first, t.first? slot = some first → slot < first

theorem handed_empty (width : ℕ) : (empty width : StagingTree R).Handed width where
  toLaid := laid_empty width
  forward slot first found := by
    have used := (laid_empty width).used slot first found
    have next : (empty width : StagingTree R).next = 1 := rfl
    omega

/-- A slot on a path belongs to this place of the tree only. -/
theorem Handed.place_unique (handed : t.Handed width) {depth' : ℕ}
    (here : t.slotAt index depth = some slot) (there : t.slotAt other depth' = some slot) :
    depth = depth' ∧ ∀ q < depth, index.testBit q = other.testBit q := by
  have positive {index : BasisIndex} {depth : ℕ} : t.slotAt index (depth + 1) ≠ some 0 := by
    intro root
    obtain ⟨above, -, step⟩ := Option.bind_eq_some_iff.mp root
    obtain ⟨first, found, place⟩ := Option.map_eq_some_iff.mp step
    have later := handed.forward above first found
    split at place <;> omega
  have depths : depth = depth' := by
    induction depth generalizing depth' slot with
    | zero =>
        obtain rfl := Option.some.inj here
        cases depth' with
        | zero => rfl
        | succ depth' => exact absurd there positive
    | succ depth ih =>
        cases depth' with
        | zero =>
            obtain rfl := Option.some.inj there
            exact absurd here positive
        | succ depth' =>
            obtain ⟨above, passed, passed', -⟩ := handed.same_parent here there
            rw [ih passed passed']
  subst depths
  exact ⟨rfl, handed.testBit_eq here there⟩

/-! ## Storing keeps places -/

/-- The tree after some more stores: every place has kept its slot. -/
structure Grown (t : StagingTree R) (width : ℕ) (t' : StagingTree R) : Prop where
  handed : t'.Handed width
  kept : ∀ {index depth slot}, t.slotAt index depth = some slot → t'.slotAt index depth = some slot

theorem Handed.grown_refl (handed : t.Handed width) : Grown t width t := ⟨handed, id⟩

theorem Grown.trans {t'' : StagingTree R} (first : Grown t width t') (second : Grown t' width t'') :
    Grown t width t'' :=
  ⟨second.handed, second.kept ∘ first.kept⟩

theorem Handed.grown_branched (handed : t.Handed width)
    (budding : t.Budding width depth slot index) : Grown t width (t.branched slot) := by
  have below := handed.lt_next budding.passed
  refine ⟨⟨budding.laid_branched, fun slot' first found => ?_⟩,
    handed.slotAt_branched_of_some below budding.free⟩
  rcases first?_branched_eq_some (handed.lt_size budding.passed) found with ⟨rfl, rfl⟩ | ⟨-, old⟩
  · exact below
  · exact handed.forward slot' first old

theorem Handed.grown_descend (handed : t.Handed width) (index : BasisIndex)
    (total : depth + levels = width) (passed : t.slotAt index depth = some slot) :
    Grown t width (descend index levels depth slot t).2 := by
  induction levels generalizing t depth slot with
  | zero => exact handed.grown_refl
  | succ levels ih =>
      rw [StagingTree.descend]
      cases found : t.first? slot with
      | some first =>
          rw [branch_of_some found]
          refine ih handed (by omega) ?_
          rw [slotAt, passed, Option.bind_some, found]
          rfl
      | none =>
          rw [branch_of_none found]
          have budding : t.Budding width depth slot index :=
            ⟨handed.toLaid, by omega, passed, found⟩
          have grown := handed.grown_branched budding
          exact grown.trans
            (ih grown.handed (by omega) (budding.slotAt_fresh index fun _ _ => rfl))

theorem Handed.grown_filled (handed : t.Handed width) {leaf : ℕ}
    (passed : t.slotAt index depth = some leaf) (a : Amplitude R) :
    Grown t width (t.filled leaf a) := by
  refine ⟨⟨handed.filled passed a, fun slot first found => ?_⟩, fun found => ?_⟩
  · rw [first?_filled] at found
    exact handed.forward slot first found
  · rwa [slotAt_filled]

/-- A store makes the whole path of its basis state. -/
theorem Handed.grown_insert (handed : t.Handed width) (index : BasisIndex) (a : Amplitude R) :
    Grown t width (t.insert width index a) ∧
      ∃ leaf, (t.insert width index a).slotAt index width = some leaf := by
  have grown := handed.grown_descend index (Nat.zero_add width) rfl
  obtain ⟨-, passed, -⟩ := handed.toLaid.descend index (Nat.zero_add width) rfl
  have filled := grown.handed.grown_filled passed a
  exact ⟨grown.trans filled, _, filled.kept passed⟩

/-- After any run of stores every place has kept its slot, and all that counts has its path. -/
theorem Handed.grown_insertAll [Scalar R] (handed : t.Handed width)
    (source : BasisIndex → Amplitude R) (order : List BasisIndex) :
    Grown t width (t.insertAll width source order) ∧
      ∀ index ∈ order, Scalar.lt 0 (source index).normSq = true →
        ∃ leaf, (t.insertAll width source order).slotAt index width = some leaf := by
  unfold insertAll
  induction order generalizing t with
  | nil => exact ⟨handed.grown_refl, nofun⟩
  | cons here order ih =>
      rw [List.foldl_cons]
      by_cases counts : Scalar.lt 0 (source here).normSq = true
      · rw [if_pos counts]
        obtain ⟨grown, leaf, passed⟩ := handed.grown_insert here (source here)
        obtain ⟨more, paths⟩ := ih grown.handed
        refine ⟨grown.trans more, fun index listed positive => ?_⟩
        rcases List.mem_cons.mp listed with rfl | later
        · exact ⟨leaf, more.kept passed⟩
        · exact paths index later positive
      · rw [if_neg counts]
        obtain ⟨more, paths⟩ := ih handed
        refine ⟨more, fun index listed positive => ?_⟩
        rcases List.mem_cons.mp listed with rfl | later
        · exact absurd positive counts
        · exact paths index later positive

/-! ## Building reads amplitudes only -/

theorem slotAt_branches (passed : t.slotAt index depth = some slot)
    (found : t.first? slot = some first) :
    t.slotAt (index.clear (.power depth)) (depth + 1) = some first ∧
      t.slotAt (index ||| .power depth) (depth + 1) = some (first + 1) := by
  have low : t.slotAt (index.clear (.power depth)) depth = some slot := by
    rw [← passed]
    refine slotAt_congr fun q below => ?_
    rw [BasisIndex.testBit_clear_power, Function.update_of_ne below.ne]
  have high : t.slotAt (index ||| .power depth) depth = some slot := by
    rw [← passed]
    refine slotAt_congr fun q below => ?_
    rw [BasisIndex.testBit_or_power, Function.update_of_ne below.ne]
  constructor
  · rw [slotAt, low, Option.bind_some, found, Option.map_some, BasisIndex.bit,
      BasisIndex.testBit_clear_power, Function.update_self, if_neg Bool.false_ne_true]
  · rw [slotAt, high, Option.bind_some, found, Option.map_some, BasisIndex.bit,
      BasisIndex.testBit_or_power, Function.update_self, if_pos rfl]

/-- What holds of all basis states below a place holds of those that go on with 0 and with 1. -/
theorem forall_branches {holds : BasisIndex → Prop}
    (every : ∀ other : BasisIndex, (∀ q, q < depth → other.testBit q = index.testBit q) → holds other) :
    (∀ other : BasisIndex,
      (∀ q, q < depth + 1 → other.testBit q = (index.clear (.power depth)).testBit q) → holds other) ∧
    ∀ other : BasisIndex,
      (∀ q, q < depth + 1 → other.testBit q = (index ||| .power depth).testBit q) → holds other := by
  refine ⟨fun other same => every other fun q below => ?_,
    fun other same => every other fun q below => ?_⟩
  · rw [same q (by omega), BasisIndex.testBit_clear_power, Function.update_of_ne below.ne]
  · rw [same q (by omega), BasisIndex.testBit_or_power, Function.update_of_ne below.ne]

section Build

variable [Scalar R] {s : NodeStore R}

theorem build_of_none (free : t.first? slot = none) :
    t.build (levels + 1) slot s = (0, s) := by
  rw [build, show t.slots[slot]?.bind (·.branches) = none from free]

theorem build_of_some (found : t.first? slot = some first) :
    t.build (levels + 1) slot s =
      let (low, s) := t.build levels first s
      let (high, s) := t.build levels (first + 1) s
      if low == 0 && high == 0 then (0, s) else s.push ⟨1, some (low, high)⟩ := by
  rw [build, show t.slots[slot]?.bind (·.branches) = some first from found]

/-- Nothing is built below a slot without amplitudes. -/
theorem build_of_vacant (passed : t.slotAt index depth = some slot)
    (vacant : ∀ other : BasisIndex, (∀ q, q < depth → other.testBit q = index.testBit q) →
      t.staged (depth + levels) other = none) :
    t.build levels slot s = (0, s) := by
  induction levels generalizing index depth slot s with
  | zero =>
      have empty := vacant index fun _ _ => rfl
      rw [Nat.add_zero, staged, passed, Option.bind_some] at empty
      rw [build, show t.slots[slot]?.bind (·.amplitude) = none from empty]
  | succ levels ih =>
      cases found : t.first? slot with
      | none => exact build_of_none found
      | some first =>
          obtain ⟨low, high⟩ := slotAt_branches passed found
          have total : depth + (levels + 1) = depth + 1 + levels := by omega
          simp only [total] at vacant
          obtain ⟨lowVacant, highVacant⟩ := forall_branches vacant
          rw [build_of_some found, ih low lowVacant]
          dsimp only
          rw [ih high highVacant]
          rfl

/-- Trees with the same amplitudes below two slots build the same below them. -/
theorem build_congr (passed : t.slotAt index depth = some slot)
    (passed' : t'.slotAt index depth = some slot')
    (same : ∀ other : BasisIndex, (∀ q, q < depth → other.testBit q = index.testBit q) →
      t'.staged (depth + levels) other = t.staged (depth + levels) other) :
    t'.build levels slot' s = t.build levels slot s := by
  induction levels generalizing index depth slot slot' s with
  | zero =>
      have equal := same index fun _ _ => rfl
      rw [Nat.add_zero, staged, staged, passed, passed', Option.bind_some, Option.bind_some, stored?,
        stored?] at equal
      rw [build, build, equal]
  | succ levels ih =>
      have total : depth + (levels + 1) = depth + 1 + levels := by omega
      simp only [total] at same
      -- a node that has branches in one tree only has no amplitude below it
      cases found : t.first? slot with
      | none =>
          rw [build_of_none found]
          refine build_of_vacant passed' fun other shared => ?_
          have ended : t.slotAt other (depth + 1) = none := by
            rw [slotAt, slotAt_congr shared, passed, Option.bind_some, found]
            rfl
          rw [total, same other shared, staged, slotAt_of_ended ended levels]
          rfl
      | some first =>
          cases found' : t'.first? slot' with
          | none =>
              rw [build_of_none found']
              refine (build_of_vacant passed fun other shared => ?_).symm
              have ended : t'.slotAt other (depth + 1) = none := by
                rw [slotAt, slotAt_congr shared, passed', Option.bind_some, found']
                rfl
              rw [total, ← same other shared, staged, slotAt_of_ended ended levels]
              rfl
          | some first' =>
              obtain ⟨low, high⟩ := slotAt_branches passed found
              obtain ⟨low', high'⟩ := slotAt_branches passed' found'
              obtain ⟨lowSame, highSame⟩ := forall_branches same
              rw [build_of_some found, build_of_some found', ih low low' lowSame]
              dsimp only
              rw [ih high high' highSame]

end Build

/-! ## Every order -/

/-- Each slot of a staging tree belongs to one place in it, and there are enough of them. -/
structure Placed (t : StagingTree R) (width : ℕ) : Prop where
  size : t.slots.size = capacity width
  next_le : t.next ≤ capacity width
  below : ∀ {index depth slot}, t.slotAt index depth = some slot → slot < capacity width
  unique : ∀ {index other depth depth' slot}, t.slotAt index depth = some slot →
    t.slotAt other depth' = some slot →
      depth = depth' ∧ ∀ q < depth, index.testBit q = other.testBit q

theorem Handed.placed (handed : t.Handed width) : t.Placed width where
  size := handed.size
  next_le := handed.next_le
  below passed := (handed.lt_next passed).trans_le handed.next_le
  unique := handed.place_unique

/-- The amplitude stored for a basis state is that of its lowest bits. -/
theorem staged_mod (t : StagingTree R) (width : ℕ) (index : BasisIndex) :
    t.staged width (index % 2 ^ width) = t.staged width index := by
  rw [staged, staged, slotAt_congr fun q below => ?_]
  rw [Nat.testBit_mod_two_pow, decide_eq_true below, Bool.true_and]

/-- Two runs that store the same basis states store the same amplitudes. -/
theorem staged_insertAll_congr [Scalar R] (source : BasisIndex → Amplitude R)
    {order order' : List BasisIndex} (inside : ∀ index ∈ order, index < 2 ^ width)
    (same : ∀ index, index ∈ order' ↔ index ∈ order) (index : BasisIndex) :
    ((empty width).insertAll width source order').staged width index =
      ((empty width).insertAll width source order).staged width index := by
  have inside' : ∀ index ∈ order', index < 2 ^ width :=
    fun index listed => inside index ((same index).mp listed)
  have below : index % 2 ^ width < 2 ^ width := Nat.mod_lt _ (Nat.two_pow_pos width)
  rw [← staged_mod, ← staged_mod _ _ index, ((laid_empty width).insertAll source inside').2 _ below,
    ((laid_empty width).insertAll source inside).2 _ below]
  simp only [same]

/-- Amplitudes are stored in any order.  Every place that is needed gets a slot of its own and keeps
it, the slots do not run out, and the tree that is built is the same for all orders. -/
theorem stored_in_any_order (source : BasisIndex → Amplitude ℝ) {order : List BasisIndex}
    (inside : ∀ index ∈ order, index < 2 ^ width) :
    let t := (empty width).insertAll width source order
    Placed t width ∧
    (∀ index ∈ order, source index ≠ 0 → ∃ leaf, t.slotAt index width = some leaf) ∧
    (∀ more index depth slot, t.slotAt index depth = some slot →
      ((empty width).insertAll width source (order ++ more)).slotAt index depth = some slot) ∧
    (∀ index < 2 ^ width, (Tree.ofStaged width 0 t).amplitude index =
      if index ∈ order then source index else 0) ∧
    ∀ order', (∀ index, index ∈ order' ↔ index ∈ order) →
      Tree.ofStaged width 0 ((empty width).insertAll width source order') =
        Tree.ofStaged width 0 t := by
  intro t
  obtain ⟨grown, paths⟩ := (handed_empty width).grown_insertAll source order
  refine ⟨grown.handed.placed, fun index listed nonzero => paths index listed ?_, ?_, ?_, ?_⟩
  · rw [Scalar.lt_iff]
    exact lt_of_le_of_ne (Amplitude.normSq_nonneg _)
      (Ne.symm (mt (Amplitude.normSq_eq_zero_iff _).mp nonzero))
  · intro more index depth slot passed
    rw [insertAll, List.foldl_append]
    exact (grown.handed.grown_insertAll source more).1.kept passed
  · exact fun index below => Tree.amplitude_ofStaged source inside below
  · intro order' same
    have built : ((empty width).insertAll width source order').build width 0
        (NodeStore.empty (0 : ℝ)) = t.build width 0 (.empty 0) :=
      build_congr (show t.slotAt 0 0 = some 0 from rfl) rfl fun index _ => by
        rw [Nat.zero_add]
        exact staged_insertAll_congr source inside same index
    rw [Tree.ofStaged, Tree.ofStaged, built]

/-- The amplitudes of two qubits are stored from the last one on, and from the first one on. -/
theorem stored_in_any_order_backward :
    let source : BasisIndex → Amplitude ℝ := fun index => if index = 1 then 0 else ⟨index, 1⟩
    let backward := (empty 2).insertAll 2 source [3, 2, 1, 0]
    Tree.ofStaged 2 0 ((empty 2).insertAll 2 source [0, 1, 2, 3]) = Tree.ofStaged 2 0 backward ∧
      (Tree.ofStaged 2 0 backward).amplitude 1 = 0 ∧
      (Tree.ofStaged 2 0 backward).amplitude 3 = ⟨3, 1⟩ ∧ backward.Placed 2 := by
  intro source backward
  have inside : ∀ index ∈ [3, 2, 1, 0], index < 2 ^ 2 := by decide
  obtain ⟨placed, -, -, amplitudes, same⟩ := stored_in_any_order source inside
  have reversed (index : BasisIndex) : index ∈ [0, 1, 2, 3] ↔ index ∈ [3, 2, 1, 0] :=
    @List.mem_reverse ℕ index [3, 2, 1, 0]
  refine ⟨same _ reversed, ?_, ?_, placed⟩
  · exact (amplitudes 1 (by decide)).trans (by simp [source])
  · exact (amplitudes 3 (by decide)).trans (by simp [source])

end StagingTree

end AmplitudeTree
