import AmplitudeTree.Proofs.BasisIndex
import AmplitudeTree.Proofs.Tree.Staging
import Mathlib.Algebra.Ring.GeomSum
import Mathlib.Algebra.Order.BigOperators.Group.Finset

/-!
# Amplitudes of staged trees

A staging tree has a slot for every branch that some amplitude needs: different paths of one length
lead to different slots, and the slots never run out.  So an amplitude can be read where it was
stored, and nowhere else, whatever the order in which the amplitudes are stored.  The tree that is
built has these amplitudes.
-/

namespace AmplitudeTree

namespace StagingTree

section Slots

variable {R : Type} {t : StagingTree R} {index other : BasisIndex}
  {width depth slot first : ℕ}

def first? (t : StagingTree R) (slot : ℕ) : Option ℕ := t.slots[slot]?.bind (·.branches)

def stored? (t : StagingTree R) (slot : ℕ) : Option (Amplitude R) :=
  t.slots[slot]?.bind (·.amplitude)

def slotAt (t : StagingTree R) (index : BasisIndex) : (depth : ℕ) → Option ℕ
  | 0 => some 0
  | depth + 1 =>
      (t.slotAt index depth).bind fun slot =>
        (t.first? slot).map fun first => if index.bit depth then first + 1 else first

/-- The amplitude that is stored for a basis state. -/
def staged (t : StagingTree R) (width : ℕ) (index : BasisIndex) : Option (Amplitude R) :=
  (t.slotAt index width).bind t.stored?

def branched (t : StagingTree R) (slot : ℕ) : StagingTree R :=
  ⟨t.slots.modify slot fun node => { node with branches := some t.next }, t.next + 2⟩

/-- The tree in which a leaf has got an amplitude, unless it had one. -/
def filled (t : StagingTree R) (leaf : ℕ) (a : Amplitude R) : StagingTree R :=
  ⟨t.slots.modify leaf fun node => { node with amplitude := node.amplitude.or (some a) }, t.next⟩

theorem branch_of_some (found : t.first? slot = some first) : t.branch slot = (first, t) := by
  unfold branch
  rw [show t.slots[slot]?.bind (·.branches) = some first from found]

theorem branch_of_none (free : t.first? slot = none) :
    t.branch slot = (t.next, t.branched slot) := by
  unfold branch
  rw [show t.slots[slot]?.bind (·.branches) = none from free]
  rfl

theorem stored?_branched (t : StagingTree R) (slot other : ℕ) :
    (t.branched slot).stored? other = t.stored? other := by
  rw [stored?, branched, Array.getElem?_modify, stored?]
  split
  · cases t.slots[other]? <;> rfl
  · rfl

theorem first?_branched_of_ne {other : ℕ} (different : other ≠ slot) :
    (t.branched slot).first? other = t.first? other := by
  rw [first?, branched, Array.getElem?_modify, if_neg (Ne.symm different), first?]

theorem first?_branched_self (inside : slot < t.slots.size) :
    (t.branched slot).first? slot = some t.next := by
  rw [first?, branched, Array.getElem?_modify, if_pos rfl, Array.getElem?_eq_getElem inside]
  rfl

theorem first?_branched_eq_some (inside : slot < t.slots.size) {other : ℕ}
    (found : (t.branched slot).first? other = some first) :
    other = slot ∧ first = t.next ∨ other ≠ slot ∧ t.first? other = some first := by
  by_cases here : other = slot
  · rw [here, first?_branched_self inside] at found
    exact .inl ⟨here, (Option.some.inj found).symm⟩
  · rw [first?_branched_of_ne here] at found
    exact .inr ⟨here, found⟩

theorem first?_filled (t : StagingTree R) (leaf : ℕ) (a : Amplitude R) (slot : ℕ) :
    (t.filled leaf a).first? slot = t.first? slot := by
  rw [first?, filled, Array.getElem?_modify, first?]
  split
  · cases t.slots[slot]? <;> rfl
  · rfl

theorem stored?_filled_self {leaf : ℕ} (inside : leaf < t.slots.size) (a : Amplitude R) :
    (t.filled leaf a).stored? leaf = (t.stored? leaf).or (some a) := by
  rw [stored?, filled, Array.getElem?_modify, if_pos rfl, stored?, Array.getElem?_eq_getElem inside]
  rfl

theorem stored?_filled_of_ne {leaf : ℕ} (different : slot ≠ leaf) (a : Amplitude R) :
    (t.filled leaf a).stored? slot = t.stored? slot := by
  rw [stored?, filled, Array.getElem?_modify, if_neg (Ne.symm different), stored?]

theorem slotAt_filled (t : StagingTree R) (leaf : ℕ) (a : Amplitude R) (index : BasisIndex)
    (depth : ℕ) : (t.filled leaf a).slotAt index depth = t.slotAt index depth := by
  induction depth with
  | zero => rfl
  | succ depth ih => simp only [slotAt, ih, first?_filled]

theorem slotAt_of_ended (ended : t.slotAt index depth = none) (levels : ℕ) :
    t.slotAt index (depth + levels) = none := by
  induction levels with
  | zero => exact ended
  | succ levels ih =>
      rw [← Nat.add_assoc, slotAt, ih]
      rfl

/-- The path of a basis state depends on the qubits that it has passed. -/
theorem slotAt_congr (same : ∀ q, q < depth → index.testBit q = other.testBit q) :
    t.slotAt index depth = t.slotAt other depth := by
  induction depth with
  | zero => rfl
  | succ depth ih =>
      rw [slotAt, slotAt, ih fun q below => same q (by omega), BasisIndex.bit, BasisIndex.bit,
        same depth (Nat.lt_succ_self _)]

/-- The slots are handed out in order, each of them to one branch of one node. -/
structure Laid (t : StagingTree R) (width : ℕ) : Prop where
  size : t.slots.size = capacity width
  rooted : 0 < t.next
  fresh : ∀ slot, t.next ≤ slot → t.first? slot = none ∧ t.stored? slot = none
  used : ∀ slot first, t.first? slot = some first → first + 1 < t.next
  apart : ∀ slot other first first', slot ≠ other → t.first? slot = some first →
    t.first? other = some first' → first + 1 < first' ∨ first' + 1 < first
  reached : ∀ slot < t.next, ∃ depth ≤ width, ∃ index, t.slotAt index depth = some slot

theorem laid_empty (width : ℕ) : (empty width : StagingTree R).Laid width := by
  have vacant (slot : ℕ) : (empty width : StagingTree R).first? slot = none ∧
      (empty width : StagingTree R).stored? slot = none := by
    unfold first? stored? empty
    rw [Array.getElem?_replicate]
    split <;> exact ⟨rfl, rfl⟩
  refine ⟨Array.size_replicate, one_pos, fun slot _ => vacant slot, fun slot first found => ?_,
    fun slot other first first' _ found => ?_, fun slot below => ⟨0, Nat.zero_le _, 0, ?_⟩⟩
  · rw [(vacant slot).1] at found
    cases found
  · rw [(vacant slot).1] at found
    cases found
  · rw [Nat.lt_one_iff.mp below]
    rfl

theorem staged_empty (width : ℕ) (index : BasisIndex) :
    (empty width : StagingTree R).staged width index = none := by
  unfold staged
  cases (empty width : StagingTree R).slotAt index width with
  | none => rfl
  | some slot =>
      rw [Option.bind_some, stored?, empty, Array.getElem?_replicate]
      split <;> rfl

/-- There are no more slots in use than paths. -/
theorem Laid.next_le (laid : t.Laid width) : t.next ≤ capacity width := by
  have covered : Finset.range t.next ⊆ (Finset.range (width + 1)).biUnion fun depth =>
      (Finset.range (2 ^ depth)).image fun index => (t.slotAt index depth).getD 0 := by
    intro slot below
    obtain ⟨depth, le, index, found⟩ := laid.reached slot (Finset.mem_range.mp below)
    refine Finset.mem_biUnion.mpr ⟨depth, Finset.mem_range.mpr (by omega), ?_⟩
    refine Finset.mem_image.mpr ⟨index % 2 ^ depth,
      Finset.mem_range.mpr (Nat.mod_lt _ (Nat.two_pow_pos depth)), ?_⟩
    have same : t.slotAt (index % 2 ^ depth) depth = t.slotAt index depth :=
      slotAt_congr fun q below => by rw [Nat.testBit_mod_two_pow, decide_eq_true below, Bool.true_and]
    rw [same, found, Option.getD_some]
  calc t.next = (Finset.range t.next).card := (Finset.card_range _).symm
    _ ≤ ∑ depth ∈ Finset.range (width + 1), 2 ^ depth := by
        refine (Finset.card_le_card covered).trans (Finset.card_biUnion_le.trans ?_)
        exact Finset.sum_le_sum fun depth _ => Finset.card_image_le.trans (Finset.card_range _).le
    _ = capacity width := by
        rw [Nat.geomSum_eq (le_refl 2), capacity, Nat.div_one]

/-- Paths that end in one slot have come from one slot above it, over the same branch. -/
theorem Laid.same_parent (laid : t.Laid width) {depth' : ℕ}
    (here : t.slotAt index (depth + 1) = some slot)
    (there : t.slotAt other (depth' + 1) = some slot) :
    ∃ above, t.slotAt index depth = some above ∧ t.slotAt other depth' = some above ∧
      index.testBit depth = other.testBit depth' := by
  obtain ⟨above, passed, step⟩ := Option.bind_eq_some_iff.mp here
  obtain ⟨above', passed', step'⟩ := Option.bind_eq_some_iff.mp there
  obtain ⟨first, found, place⟩ := Option.map_eq_some_iff.mp step
  obtain ⟨first', found', place'⟩ := Option.map_eq_some_iff.mp step'
  have parents : above = above' := by
    by_contra different
    have gap := laid.apart above above' first first' different found found'
    split at place <;> split at place' <;> omega
  subst parents
  obtain rfl := Option.some.inj (found.symm.trans found')
  refine ⟨above, passed, passed', ?_⟩
  have sides := place.trans place'.symm
  unfold BasisIndex.bit at sides
  revert sides
  cases index.testBit depth <;> cases other.testBit depth' <;> simp

/-- The paths of two basis states that end in one slot have passed the same qubits. -/
theorem Laid.testBit_eq (laid : t.Laid width) (here : t.slotAt index depth = some slot)
    (there : t.slotAt other depth = some slot) :
    ∀ q, q < depth → index.testBit q = other.testBit q := by
  induction depth generalizing slot with
  | zero => nofun
  | succ depth ih =>
      obtain ⟨above, passed, passed', branch⟩ := laid.same_parent here there
      intro q below
      rcases Nat.lt_succ_iff_lt_or_eq.mp below with lower | rfl
      · exact ih passed passed' q lower
      · exact branch

/-! ## Fresh branches -/

structure Budding (t : StagingTree R) (width depth slot : ℕ) (index : BasisIndex) : Prop where
  laid : t.Laid width
  below : depth < width
  passed : t.slotAt index depth = some slot
  free : t.first? slot = none

theorem Laid.lt_next (laid : t.Laid width) (passed : t.slotAt index depth = some slot) :
    slot < t.next := by
  cases depth with
  | zero =>
      obtain rfl := Option.some.inj passed
      exact laid.rooted
  | succ depth =>
      obtain ⟨above, _, step⟩ := Option.bind_eq_some_iff.mp passed
      obtain ⟨first, found, place⟩ := Option.map_eq_some_iff.mp step
      have used := laid.used above first found
      split at place <;> omega

theorem Laid.lt_size (laid : t.Laid width) (passed : t.slotAt index depth = some slot) :
    slot < t.slots.size :=
  (laid.lt_next passed).trans_le (laid.next_le.trans_eq laid.size.symm)

/-- A path through fresh branches ends there; all other paths are kept. -/
theorem Laid.slotAt_branched (laid : t.Laid width) (inside : slot < t.next)
    (free : t.first? slot = none) (index : BasisIndex) (depth : ℕ) :
    (t.branched slot).slotAt index depth = t.slotAt index depth ∨
      t.slotAt index depth = none ∧
        ∃ leaf, (t.branched slot).slotAt index depth = some leaf ∧ t.next ≤ leaf := by
  induction depth with
  | zero => exact .inl rfl
  | succ depth ih =>
      rw [slotAt, slotAt]
      rcases ih with same | ⟨ended, leaf, passed, le⟩
      · rw [same]
        cases t.slotAt index depth with
        | none => exact .inl rfl
        | some above =>
            rw [Option.bind_some, Option.bind_some]
            by_cases here : above = slot
            · subst here
              rw [first?_branched_self (inside.trans_le (laid.next_le.trans_eq laid.size.symm)), free]
              refine .inr ⟨rfl, _, rfl, ?_⟩
              dsimp only
              split <;> omega
            · rw [first?_branched_of_ne here]
              exact .inl rfl
      · refine .inl ?_
        rw [ended, passed, Option.bind_some, first?_branched_of_ne (by omega),
          (laid.fresh leaf le).1]
        rfl

theorem Laid.slotAt_branched_of_some (laid : t.Laid width) (inside : slot < t.next)
    (free : t.first? slot = none) {place : ℕ} (passed : t.slotAt index depth = some place) :
    (t.branched slot).slotAt index depth = some place := by
  rcases laid.slotAt_branched inside free index depth with same | ⟨ended, _⟩
  · exact same.trans passed
  · rw [ended] at passed
    cases passed

theorem Laid.staged_branched (laid : t.Laid width) (inside : slot < t.next)
    (free : t.first? slot = none) (index : BasisIndex) :
    (t.branched slot).staged width index = t.staged width index := by
  unfold staged
  rw [show (t.branched slot).stored? = t.stored? from funext (stored?_branched t slot)]
  rcases laid.slotAt_branched inside free index width with same | ⟨ended, leaf, passed, le⟩
  · rw [same]
  · rw [ended, passed, Option.bind_some, (laid.fresh leaf le).2]
    rfl

theorem Budding.slotAt_fresh (budding : t.Budding width depth slot index) (other : BasisIndex)
    (same : ∀ q, q < depth → other.testBit q = index.testBit q) :
    (t.branched slot).slotAt other (depth + 1) =
      some (if other.bit depth then t.next + 1 else t.next) := by
  obtain ⟨laid, -, passed, free⟩ := budding
  have kept := laid.slotAt_branched_of_some (laid.lt_next passed) free
    ((slotAt_congr same).trans passed)
  rw [slotAt, kept, Option.bind_some, first?_branched_self (laid.lt_size passed)]
  rfl

theorem Budding.laid_branched (budding : t.Budding width depth slot index) :
    (t.branched slot).Laid width := by
  have ⟨laid, below, passed, free⟩ := budding
  have inside := laid.lt_size passed
  refine ⟨Array.size_modify.trans laid.size, Nat.succ_pos _, fun slot' le => ?_,
    fun slot' first' found => ?_, fun slot' other first' first'' different found found' => ?_,
    fun slot' lt => ?_⟩
  · have le : t.next + 2 ≤ slot' := le
    have used := laid.lt_next passed
    rw [stored?_branched, first?_branched_of_ne (by omega)]
    exact laid.fresh slot' (by omega)
  · change first' + 1 < t.next + 2
    rcases first?_branched_eq_some inside found with ⟨-, rfl⟩ | ⟨-, old⟩
    · omega
    · have := laid.used slot' first' old
      omega
  · rcases first?_branched_eq_some inside found with ⟨rfl, rfl⟩ | ⟨-, old⟩ <;>
      rcases first?_branched_eq_some inside found' with ⟨rfl, rfl⟩ | ⟨-, old'⟩
    · exact absurd rfl different
    · exact .inr (laid.used other first'' old')
    · exact .inl (laid.used slot' first' old)
    · exact laid.apart slot' other first' first'' different old old'
  · -- The two fresh slots are on the paths that continue with 0 and with 1 below `slot`.
    have low := budding.slotAt_fresh (index.clear (.power depth)) fun q lower => by
      rw [BasisIndex.testBit_clear_power, Function.update_of_ne (by omega)]
    have high := budding.slotAt_fresh (index ||| .power depth) fun q lower => by
      rw [BasisIndex.testBit_or_power, Function.update_of_ne (by omega)]
    rw [BasisIndex.bit, BasisIndex.testBit_clear_power, Function.update_self] at low
    rw [BasisIndex.bit, BasisIndex.testBit_or_power, Function.update_self] at high
    have lt : slot' < t.next + 2 := lt
    rcases Nat.lt_or_ge slot' t.next with old | new
    · obtain ⟨depth', le, index', found⟩ := laid.reached slot' old
      exact ⟨depth', le, index', laid.slotAt_branched_of_some (laid.lt_next passed) free found⟩
    · rcases (by omega : slot' = t.next ∨ slot' = t.next + 1) with rfl | rfl
      · exact ⟨depth + 1, below, _, low⟩
      · exact ⟨depth + 1, below, _, high⟩

/-! ## Storing amplitudes -/

/-- Descending along a basis state makes its path, and keeps all amplitudes. -/
theorem Laid.descend (laid : t.Laid width) (index : BasisIndex) {levels : ℕ}
    (total : depth + levels = width) (passed : t.slotAt index depth = some slot) :
    (descend index levels depth slot t).2.Laid width ∧
      (descend index levels depth slot t).2.slotAt index width =
        some (descend index levels depth slot t).1 ∧
      ∀ other, (descend index levels depth slot t).2.staged width other = t.staged width other := by
  induction levels generalizing t depth slot with
  | zero =>
      obtain rfl : depth = width := total
      exact ⟨laid, passed, fun _ => rfl⟩
  | succ levels ih =>
      rw [StagingTree.descend]
      cases found : t.first? slot with
      | some first =>
          rw [branch_of_some found]
          refine ih laid (by omega) ?_
          rw [slotAt, passed, Option.bind_some, found]
          rfl
      | none =>
          rw [branch_of_none found]
          have budding : t.Budding width depth slot index := ⟨laid, by omega, passed, found⟩
          have below := ih budding.laid_branched (by omega) (budding.slotAt_fresh index fun _ _ => rfl)
          exact ⟨below.1, below.2.1, fun other =>
            (below.2.2 other).trans (laid.staged_branched (laid.lt_next passed) found other)⟩

theorem Laid.filled (laid : t.Laid width) {leaf : ℕ} (passed : t.slotAt index depth = some leaf)
    (a : Amplitude R) : (t.filled leaf a).Laid width := by
  have lt := laid.lt_next passed
  refine ⟨Array.size_modify.trans laid.size, laid.rooted, fun slot le => ?_, ?_, ?_,
    fun slot below => ?_⟩
  · have le : t.next ≤ slot := le
    rw [first?_filled, stored?_filled_of_ne (by omega)]
    exact laid.fresh slot le
  · intro slot first
    rw [first?_filled]
    exact laid.used slot first
  · simpa only [first?_filled] using laid.apart
  · simpa only [slotAt_filled] using laid.reached slot below

/-- Filling a leaf stores an amplitude for the basis states that share the path of the leaf. -/
theorem Laid.staged_filled (laid : t.Laid width) {leaf : ℕ}
    (passed : t.slotAt index width = some leaf) (a : Amplitude R) (other : BasisIndex) :
    (t.filled leaf a).staged width other =
      if ∀ q, q < width → other.testBit q = index.testBit q then
        (t.staged width other).or (some a)
      else t.staged width other := by
  rw [staged, staged, slotAt_filled]
  split
  · next same =>
      rw [slotAt_congr same, passed, Option.bind_some, Option.bind_some,
        stored?_filled_self (laid.lt_size passed)]
  · next differs =>
      cases found : t.slotAt other width with
      | none => rfl
      | some slot =>
          refine stored?_filled_of_ne (fun shared => differs ?_) a
          exact laid.testBit_eq (found.trans (congrArg some shared)) passed

/-- An amplitude is stored for the basis states that share its path. -/
theorem Laid.insert (laid : t.Laid width) (index : BasisIndex) (a : Amplitude R) :
    (t.insert width index a).Laid width ∧ ∀ other, (t.insert width index a).staged width other =
      if ∀ q, q < width → other.testBit q = index.testBit q then
        (t.staged width other).or (some a)
      else t.staged width other := by
  obtain ⟨laid, passed, kept⟩ := laid.descend index (Nat.zero_add width) rfl
  simp only [← kept]
  exact ⟨laid.filled passed a, laid.staged_filled passed a⟩

/-- After amplitudes have been stored in any order, those that count are found at
their basis states. -/
theorem Laid.insertAll [Scalar R] (laid : t.Laid width) (source : BasisIndex → Amplitude R)
    {order : List BasisIndex} (inside : ∀ index ∈ order, index < 2 ^ width) :
    (t.insertAll width source order).Laid width ∧ ∀ index < 2 ^ width,
      (t.insertAll width source order).staged width index =
        (t.staged width index).or
          (if index ∈ order ∧ Scalar.lt 0 (source index).normSq then some (source index)
          else none) := by
  unfold StagingTree.insertAll
  induction order generalizing t with
  | nil => exact ⟨laid, fun index _ => by simp⟩
  | cons here order ih =>
      obtain ⟨bound, inside⟩ := List.forall_mem_cons.mp inside
      rw [List.foldl_cons]
      by_cases counts : Scalar.lt 0 (source here).normSq = true
      · rw [if_pos counts]
        obtain ⟨laid', inserted⟩ := laid.insert here (source here)
        obtain ⟨done, found⟩ := ih laid' inside
        refine ⟨done, fun index below => ?_⟩
        have same : (∀ q, q < width → index.testBit q = here.testBit q) ↔ index = here := by
          refine ⟨fun agree => BasisIndex.eq_of_testBit below bound agree, ?_⟩
          rintro rfl q _
          rfl
        rw [found index below, inserted, if_congr same rfl rfl]
        by_cases self : index = here
        · subst self
          rw [if_pos rfl, Option.or_assoc]
          simp [counts]
        · rw [if_neg self]
          simp [self]
      · rw [if_neg counts]
        obtain ⟨done, found⟩ := ih laid inside
        refine ⟨done, fun index below => (found index below).trans ?_⟩
        by_cases self : index = here
        · subst self
          simp [counts]
        · simp [self]

end Slots

/-! ## The tree that is built -/

variable {t : StagingTree ℝ} {width : ℕ}

noncomputable def content (found : Option (Amplitude ℝ)) : ℂ := (found.getD 0).toComplex

/-- The store built below a slot has the amplitudes that are stored below the slot. -/
theorem Scaled.build_amplitude (scaled : t.Scaled) {s : NodeStore ℝ} (exact : s.Exact)
    (index : BasisIndex) (levels depth slot : ℕ) (passed : t.slotAt index depth = some slot) :
    ((t.build levels slot s).2.unfold (t.build levels slot s).1).amplitude depth index.testBit =
      content (t.staged (depth + levels) index) := by
  induction levels generalizing s depth slot with
  | zero =>
      rw [StagingTree.build, Nat.add_zero, staged, passed, Option.bind_some, stored?]
      split
      · next a found =>
          rw [found, (exact.push_leaf (scaled slot a found)).holds]
          rfl
      · next missing =>
          rw [missing, NodeStore.unfold_zero]
          rfl
  | succ levels ih =>
      have step : t.slotAt index (depth + 1) =
          (t.first? slot).map fun first => if index.bit depth then first + 1 else first := by
        rw [slotAt, passed, Option.bind_some]
      rw [StagingTree.build, ← Nat.add_assoc, Nat.add_right_comm]
      split
      · next missing =>
          rw [first?, missing] at step
          rw [NodeStore.unfold_zero, staged, slotAt_of_ended step levels]
          rfl
      · next first found =>
          rw [first?, found, Option.map_some] at step
          have low := scaled.build exact levels first
          have high := scaled.build low.exact levels (first + 1)
          have growth := high.growth
          have child : (if index.testBit depth then
                ((t.build levels (first + 1) (t.build levels first s).2).2.unfold
                  (t.build levels (first + 1) (t.build levels first s).2).1).amplitude (depth + 1)
                  index.testBit
              else ((t.build levels first s).2.unfold (t.build levels first s).1).amplitude
                (depth + 1) index.testBit) = content (t.staged (depth + 1 + levels) index) := by
            unfold BasisIndex.bit at step
            split
            · next set =>
                rw [if_pos set] at step
                exact ih low.exact _ _ step
            · next clear =>
                rw [if_neg clear] at step
                exact ih exact _ _ step
          rw [← child, ← high.unfold_eq low.stored]
          dsimp only
          split
          · next empty =>
              obtain ⟨lowZero, highZero⟩ := Bool.and_eq_true_iff.mp empty
              rw [beq_iff_eq.mp lowZero, beq_iff_eq.mp highZero, NodeStore.unfold_zero]
              exact (ite_self _).symm
          · have scaled : (1 : Amplitude ℝ).toComplex ≠ 0 := one_ne_zero
            rw [(high.exact.push_fork scaled (high.lt_size low.stored) high.stored).holds,
              Unfolding.amplitude_fork, Amplitude.toComplex_one, one_mul]

end StagingTree

namespace Tree

variable {width : ℕ} {index : BasisIndex} {source : BasisIndex → Amplitude ℝ}

/-- The tree built from amplitudes that are stored in any order has these amplitudes. -/
theorem amplitude_ofStaged (source : BasisIndex → Amplitude ℝ) {order : List BasisIndex}
    (inside : ∀ index ∈ order, index < 2 ^ width) (below : index < 2 ^ width) :
    (ofStaged width 0 ((StagingTree.empty width).insertAll width source order)).amplitude index =
      if index ∈ order then source index else 0 := by
  have scaled := (StagingTree.scaled_empty width).insertAll width source order
  have built := scaled.build .empty width 0
  have sound : (ofStaged width 0 ((StagingTree.empty width).insertAll width source order)).Sound
      False := .of_clean built.exact built.stored built.clean built.holds
  have found := scaled.build_amplitude .empty index width 0 0 rfl
  rw [Nat.zero_add, ((StagingTree.laid_empty width).insertAll source inside).2 index below,
    StagingTree.staged_empty, Option.none_or] at found
  rw [← Amplitude.toComplex_inj, sound.toComplex_amplitude, state]
  refine found.trans ?_
  rw [StagingTree.content]
  by_cases listed : index ∈ order
  · rw [if_pos listed]
    by_cases counts : Scalar.lt 0 (source index).normSq = true
    · rw [if_pos ⟨listed, counts⟩, Option.getD_some]
    · rw [if_neg fun found => counts found.2, Option.getD_none, Amplitude.toComplex_zero]
      rw [Scalar.lt_iff, Amplitude.normSq_eq, Complex.normSq_pos, not_not] at counts
      exact counts.symm
  · rw [if_neg listed, if_neg fun found => listed found.1]
    rfl

theorem amplitude_ofAmplitudes (source : BasisIndex → Amplitude ℝ) (below : index < 2 ^ width) :
    (ofAmplitudes width 0 source).amplitude index = source index := by
  have scaled := (StagingTree.scaled_empty width).insertAll width source (List.range (2 ^ width))
  have built := scaled.build .empty width 0
  have staged : (ofStaged width 0
      ((StagingTree.empty width).insertAll width source (List.range (2 ^ width)))).Sound False :=
    .of_clean built.exact built.stored built.clean built.holds
  have listed := amplitude_ofStaged source (fun _ => List.mem_range.mp) below
  rw [if_pos (List.mem_range.mpr below), ← Amplitude.toComplex_inj, staged.toComplex_amplitude]
    at listed
  rw [← Amplitude.toComplex_inj, (sound_ofAmplitudes width source).toComplex_amplitude, ← listed]
  obtain ⟨canonical, states⟩ := staged.canonicalize
  rw [← states]
  exact congrArg (fun u => Unfolding.amplitude u 0 index.testBit) canonical.reduce_unfold

end Tree

end AmplitudeTree
