import AmplitudeTree.Proofs.Tree.Formed
import AmplitudeTree.Proofs.Tree.OneQubit
import AmplitudeTree.Proofs.Tree.Reduction

/-!
# How far a reduction moves amplitudes

A reduction may replace each scale by one that is as close as the threshold says.  The scale of the
root stays, so an amplitude moves by at most the modulus of the root times what the other scales of
its path add up to.  The root is not limited, so no bound on the change of an amplitude follows from
the threshold alone.
-/

namespace AmplitudeTree

namespace NodeStore

variable {s : NodeStore ℝ} {id value low high : NodeId} {levels qubit : ℕ} {r : Reduction ℝ}
  {index : BasisIndex}

/-! ## Paths -/

/-- Below a node, all nodes that are met a number of levels further down are leaves. -/
def Layered (s : NodeStore ℝ) : ℕ → NodeId → Prop
  | 0, id => s.isZero id = false → (s.get id).branches = none
  | levels + 1, id => s.isZero id = false → ∀ low high, (s.get id).branches = some (low, high) →
      s.Layered levels low ∧ s.Layered levels high

theorem Layered.branch (layered : s.Layered (levels + 1) id) (nonzero : s.isZero id = false)
    (branches : (s.get id).branches = some (low, high)) (value : Bool) :
    s.Layered levels (if value then high else low) := by
  obtain ⟨first, second⟩ := layered nonzero low high branches
  cases value with
  | true => exact second
  | false => exact first

theorem OnLevel.layered {canonical : Prop} {width depth : ℕ}
    (onLevel : s.OnLevel canonical width depth id) (ordered : s.Ordered)
    (below : depth + levels = width) : s.Layered levels id := by
  induction levels generalizing depth id with
  | zero =>
      intro nonzero
      cases found : (s.get id).branches with
      | none => rfl
      | some pair =>
          obtain ⟨deeper, -⟩ := onLevel.branches ordered nonzero found
          exact absurd below deeper.ne
  | succ levels ih =>
      intro nonzero low high found
      obtain ⟨-, lowLevel, highLevel⟩ := onLevel.branches ordered nonzero found
      exact ⟨ih lowLevel (by omega), ih highLevel (by omega)⟩

noncomputable def pathModuli (s : NodeStore ℝ) (index : BasisIndex) :
    (levels : ℕ) → (qubit : ℕ) → NodeId → List ℝ
  | 0, _, _ => []
  | levels + 1, qubit, id =>
      match s.branch? id (index.bit qubit) with
      | none => []
      | some child =>
          if s.isZero child then []
          else ‖(s.get child).scale.toComplex‖ :: s.pathModuli index levels (qubit + 1) child

theorem pathModuli_of_branches (branches : (s.get id).branches = some (low, high)) :
    s.pathModuli index (levels + 1) qubit id =
      if s.isZero (if index.bit qubit then high else low) then []
      else ‖(s.get (if index.bit qubit then high else low)).scale.toComplex‖ ::
        s.pathModuli index levels (qubit + 1) (if index.bit qubit then high else low) := by
  rw [pathModuli, branch?, branches]
  rfl

theorem pathModuli_nonneg (s : NodeStore ℝ) (index : BasisIndex) (levels qubit : ℕ) (id : NodeId) :
    ∀ c ∈ s.pathModuli index levels qubit id, 0 ≤ c := by
  induction levels generalizing qubit id with
  | zero => exact nofun
  | succ levels ih =>
      rw [pathModuli]
      split
      · exact nofun
      · next child _ =>
          split
          · exact nofun
          · intro c member
            rcases List.mem_cons.mp member with rfl | member
            · exact norm_nonneg _
            · exact ih (qubit + 1) child c member

/-! ## The change of a product -/

/-- The change of a product of moduli if the first factor `m` changes by `δ` and
the others by `w`. -/
noncomputable def drift (w m δ : ℝ) (moduli : List ℝ) : ℝ :=
  (m + δ) * (moduli.map (· + w)).prod - m * moduli.prod

theorem drift_nil (w m δ : ℝ) : drift w m δ [] = δ := by simp [drift]

theorem drift_cons (w m δ c : ℝ) (moduli : List ℝ) :
    drift w m δ (c :: moduli) = drift w (m * c) (m * w + δ * (c + w)) moduli := by
  simp only [drift, List.map_cons, List.prod_cons]
  ring

theorem drift_nonneg {w m δ : ℝ} (wNonneg : 0 ≤ w) (mNonneg : 0 ≤ m) (δNonneg : 0 ≤ δ)
    {moduli : List ℝ} (nonneg : ∀ c ∈ moduli, 0 ≤ c) : 0 ≤ drift w m δ moduli := by
  induction moduli generalizing m δ with
  | nil => rwa [drift_nil]
  | cons c moduli ih =>
      have first := nonneg c List.mem_cons_self
      rw [drift_cons]
      exact ih (by positivity) (by positivity) fun c member =>
        nonneg c (List.mem_cons_of_mem _ member)

theorem norm_mul_sub_mul_le {a a' c c' : ℂ} {w δ : ℝ} (near : ‖a' - a‖ ≤ δ) (close : ‖c' - c‖ ≤ w) :
    ‖a' * c' - a * c‖ ≤ ‖a‖ * w + δ * (‖c‖ + w) := by
  have split : a' * c' - a * c = a * (c' - c) + (a' - a) * c' := by ring
  have bounded : ‖c'‖ ≤ ‖c‖ + w := by
    have := norm_le_norm_add_norm_sub' c' c
    linarith
  calc ‖a' * c' - a * c‖
      ≤ ‖a‖ * ‖c' - c‖ + ‖a' - a‖ * ‖c'‖ := by
        rw [split, ← norm_mul, ← norm_mul]
        exact norm_add_le _ _
    _ ≤ ‖a‖ * w + δ * (‖c‖ + w) := by
        have nonneg := (norm_nonneg _).trans near
        gcongr

/-! ## Amplitudes -/

/-- No amplitude is found below a node that is dropped. -/
theorem Mirrors.follow_of_dropped (mirrors : s.Mirrors r.store id value) (dropped : value = 0)
    (layered : s.Layered levels id) (nonzero : s.isZero id = false) (a : Amplitude ℝ) :
    Tree.follow s index levels qubit id a = 0 := by
  induction levels generalizing id value qubit a with
  | zero =>
      cases mirrors with
      | zero empty => simp [empty] at nonzero
      | leaf close => exact absurd dropped close.positive.ne'
      | fork close => exact absurd dropped close.positive.ne'
      | dropped _ branches =>
          rw [layered nonzero] at branches
          cases branches
  | succ levels ih =>
      cases mirrors with
      | zero empty => simp [empty] at nonzero
      | leaf close => exact absurd dropped close.positive.ne'
      | fork close => exact absurd dropped close.positive.ne'
      | @dropped _ low high _ branches first second =>
          rw [Tree.follow_of_branches branches]
          have layered := layered.branch nonzero branches (index.bit qubit)
          have mirrors : s.Mirrors r.store (if index.bit qubit then high else low) 0 := by
            split
            · exact second
            · exact first
          generalize (if index.bit qubit then high else low) = child at layered mirrors ⊢
          split
          · rfl
          · next some => exact ih mirrors rfl layered (Bool.not_eq_true _ ▸ some) _

theorem Close.norm_sub_le (close : s.Close r.store id value) :
    ‖(r.store.get value).scale.toComplex - (s.get id).scale.toComplex‖ ≤ Real.sqrt s.threshold := by
  have near := close.near
  rw [Amplitude.normSq_eq, Amplitude.toComplex_sub, Complex.normSq_eq_norm_sq] at near
  exact Real.le_sqrt_of_sq_le near

/-- Following an index below a representative changes the product by the drift of the path. -/
theorem Mirrors.follow_near (mirrors : s.Mirrors r.store id value) (indexed : r.Indexed)
    (layered : s.Layered levels id) (nonzero : s.isZero id = false) (kept : value ≠ 0)
    {a a' : Amplitude ℝ} {δ : ℝ} (near : ‖a'.toComplex - a.toComplex‖ ≤ δ) :
    ‖(Tree.follow r.store index levels qubit value a').toComplex -
        (Tree.follow s index levels qubit id a).toComplex‖ ≤
      drift (Real.sqrt s.threshold) ‖a.toComplex‖ δ (s.pathModuli index levels qubit id) := by
  have δNonneg := (norm_nonneg _).trans near
  induction levels generalizing id value qubit a a' δ with
  | zero => rwa [pathModuli, drift_nil]
  | succ levels ih =>
      have bounded (list : List ℝ) (nonneg : ∀ c ∈ list, 0 ≤ c) :
          ‖(0 : Amplitude ℝ).toComplex - (0 : Amplitude ℝ).toComplex‖ ≤
            drift (Real.sqrt s.threshold) ‖a.toComplex‖ δ list := by
        rw [sub_self, norm_zero]
        exact drift_nonneg (Real.sqrt_nonneg _) (norm_nonneg _) δNonneg nonneg
      cases mirrors with
      | zero empty => simp [empty] at nonzero
      | leaf _ leaf found =>
          rw [Tree.follow_of_leaf leaf, Tree.follow_of_leaf found]
          exact bounded _ (s.pathModuli_nonneg index _ _ id)
      | dropped => exact absurd rfl kept
      | @fork _ low high _ newLow newHigh _ branches found first second =>
          have nonneg := s.pathModuli_nonneg index (levels + 1) qubit id
          rw [pathModuli_of_branches branches] at nonneg ⊢
          rw [Tree.follow_of_branches branches, Tree.follow_of_branches found]
          have layered := layered.branch nonzero branches (index.bit qubit)
          have mirrors : s.Mirrors r.store (if index.bit qubit then high else low)
              (if index.bit qubit then newHigh else newLow) := by
            split
            · exact second
            · exact first
          generalize (if index.bit qubit then high else low) = child at layered mirrors nonneg ⊢
          generalize (if index.bit qubit then newHigh else newLow) = newChild at mirrors ⊢
          cases empty : s.isZero child with
          | true =>
              rw [mirrors.eq_zero_of_isZero empty]
              exact bounded [] nofun
          | false =>
              rw [empty, if_neg Bool.false_ne_true] at nonneg
              rw [if_neg Bool.false_ne_true, if_neg Bool.false_ne_true]
              by_cases dropped : newChild = 0
              · rw [dropped, mirrors.follow_of_dropped dropped layered empty]
                exact bounded _ nonneg
              · have close := mirrors.close dropped
                rw [indexed.isZero_eq_false close.positive close.stored, if_neg Bool.false_ne_true,
                  drift_cons, ← norm_mul, ← Amplitude.toComplex_mul]
                have step := norm_mul_sub_mul_le near close.norm_sub_le
                exact ih mirrors layered empty dropped step ((norm_nonneg _).trans step)

/-! ## Two leaves that are merged -/

section Pair

variable {root : NodeId} {a b c : Amplitude ℝ}

noncomputable def Reduction.single (threshold : ℝ) (a : Amplitude ℝ) : Reduction ℝ :=
  Reduction.append ⟨.empty threshold, ∅⟩ (.leaf a)

theorem Reduction.get_single (threshold : ℝ) (a : Amplitude ℝ) :
    (Reduction.single threshold a).store.get 1 = .leaf a :=
  Reduction.get_append ⟨.empty threshold, ∅⟩ (.leaf a)

/-- The first of two leaves that agree is stored, and then a node over this leaf twice. -/
theorem merge_pair (nonneg : 0 ≤ s.threshold) (scaled : s.negligible a = false)
    (near : s.negligible (a - b) = true)
    (cells : Cell.ofNode (Cell.width s.threshold) (.leaf a) =
      Cell.ofNode (Cell.width s.threshold) (.leaf b)) :
    let single := Reduction.single s.threshold a
    Reduction.merge ⟨.empty s.threshold, ∅⟩ (.leaf a) = (1, single) ∧
      single.merge (.leaf b) = (1, single) ∧
      single.merge ⟨c, some (1, 1)⟩ = (2, single.append ⟨c, some (1, 1)⟩) := by
  intro single
  have indexed := Reduction.Indexed.empty nonneg
  have novel : Reduction.Novel ⟨.empty s.threshold, ∅⟩ (.leaf a) := fun id positive stored =>
    absurd stored (Nat.not_lt.mpr positive)
  have indexed' : single.Indexed := indexed.append scaled nofun nofun novel
  have leaf : single.store.get 1 = .leaf a := Reduction.get_single s.threshold a
  have eq_one {id : ℕ} (positive : 0 < id) (stored : id < single.store.size) : id = 1 :=
    Nat.le_antisymm (Nat.lt_succ_iff.mp stored) positive
  refine ⟨indexed.merge_of_novel novel, ?_, indexed'.merge_of_novel ?_⟩
  · obtain ⟨id, positive, stored, merged⟩ :
        ∃ id, 0 < id ∧ id < single.store.size ∧ single.merge (.leaf b) = (id, single) :=
      indexed'.merge_of_near Nat.one_pos Nat.one_lt_two (by rw [leaf]; exact cells)
        (by rw [leaf]; exact near)
    rw [merged, eq_one positive stored]
  · intro id positive stored same
    rw [eq_one positive stored, leaf] at same
    cases congrArg Cell.branches same

noncomputable def twins (threshold : ℝ) (scale leaf : Amplitude ℝ) : NodeStore ℝ :=
  ⟨#[.leaf 0, .leaf leaf, ⟨scale, some (1, 1)⟩], threshold⟩

theorem ordered_twins (threshold : ℝ) (c a : Amplitude ℝ) : (twins threshold c a).Ordered where
  nonempty := Nat.succ_pos 2
  branches_lt {id low high} branches := by
    match id, branches with
    | 2, branches =>
        cases branches
        exact ⟨Nat.one_lt_two, Nat.one_lt_two⟩
    | id + 3, branches =>
        rw [get_of_size_le (s := twins threshold c a) (Nat.le_add_left 3 id)] at branches
        cases branches

theorem pairAt_twins {threshold : ℝ} (scaled : c.negligible threshold = false) :
    (twins threshold c a).PairAt 2 c a a :=
  have leaf : (twins threshold c a).LeafAt 1 a := ⟨(by decide : 1 < 3), rfl, fun _ => rfl⟩
  ⟨Bool.or_eq_false_iff.mpr ⟨rfl, scaled⟩, 1, 1, rfl, leaf, leaf⟩

/-- Two leaves of one cell that count as equal are merged. -/
theorem PairAt.reduce_eq (pair : s.PairAt root c a b) (ordered : s.Ordered) (nonneg : 0 ≤ s.threshold)
    (lowScaled : s.negligible a = false) (highScaled : s.negligible b = false)
    (near : s.negligible (a - b) = true)
    (cells : Cell.ofNode (Cell.width s.threshold) (.leaf a) =
      Cell.ofNode (Cell.width s.threshold) (.leaf b)) :
    s.reduce root = (twins s.threshold c a, 2) := by
  obtain ⟨nonzero, low, high, found, lowLeaf, highLeaf⟩ := pair
  have lowNonzero := lowLeaf.isZero_eq.trans lowScaled
  have highNonzero := highLeaf.isZero_eq.trans highScaled
  have branches : (s.get root).branches = some (low, high) := by rw [found]
  obtain ⟨first, second, third⟩ := merge_pair nonneg lowScaled near cells (c := c)
  have lowWalked : s.walk 0 s.reduceVisit 1 low (.start ⟨.empty s.threshold, ∅⟩) =
      (1, ⟨Reduction.single s.threshold a, (∅ : Std.HashMap NodeId NodeId).insert low 1⟩) := by
    rw [walk_of_answer lowNonzero (finished_start _ _)
      (s.reduceVisit_folds.leaf_eq (by rw [lowLeaf.get_eq lowNonzero]; rfl) 1)]
    dsimp only [Progress.start]
    rw [lowLeaf.get_eq lowNonzero, first]
  have highWalked : ∃ finished, s.walk 0 s.reduceVisit 1 high
      ⟨Reduction.single s.threshold a, (∅ : Std.HashMap NodeId NodeId).insert low 1⟩ =
        (1, ⟨Reduction.single s.threshold a, finished⟩) := by
    by_cases same : low = high
    · rw [← same, walk_of_finished lowNonzero Std.HashMap.getElem?_insert_self]
      exact ⟨_, rfl⟩
    · have missing : ((∅ : Std.HashMap NodeId NodeId).insert low 1)[high]? = none := by
        simp [same]
      rw [walk_of_answer highNonzero missing
        (s.reduceVisit_folds.leaf_eq (by rw [highLeaf.get_eq highNonzero]; rfl) 1)]
      rw [highLeaf.get_eq highNonzero, second]
      exact ⟨_, rfl⟩
  obtain ⟨finished, highWalked⟩ := highWalked
  rw [NodeStore.reduce, walkFrom, ordered.walk_of_descend nonzero (finished_start _ _) branches
    (s.reduceVisit_folds.fork_eq branches 0), lowWalked, highWalked, found]
  dsimp only
  rw [if_neg (by decide), third]
  rfl

end Pair

/-! ## Cells of small numbers -/

theorem le_maxOr (x fallback : ℝ) : x ≤ Scalar.maxOr x fallback := by
  unfold Scalar.maxOr
  split
  · exact le_refl x
  · next less => exact (not_le.mp fun le => less ((Scalar.le_iff _ _).mpr le)).le

theorem coordinate_eq_zero {width y : ℝ} (nonneg : 0 ≤ y) (small : 2 * y < width) :
    Cell.coordinate width y = 0 := by
  have positive : 0 < width := by linarith
  have rounded : Scalar.round (y / width) = 0 := by
    have half : y / width < 1 / 2 := by
      rw [div_lt_div_iff₀ positive two_pos]
      linarith
    have ratio : 0 ≤ y / width := by positivity
    change (if 0 ≤ y / width then ⌊y / width + 1 / 2⌋ else ⌈y / width - 1 / 2⌉) = 0
    rw [if_pos ratio, Int.floor_eq_zero_iff]
    constructor <;> linarith
  rw [Cell.coordinate, rounded]
  decide

/-- A small imaginary part does not change the cell of a leaf. -/
theorem cell_leaf_eq {threshold : ℝ} (x : ℝ) {y : ℝ} (nonneg : 0 ≤ y)
    (small : 2 * y < Real.sqrt threshold) :
    Cell.ofNode (Cell.width threshold) (.leaf (.ofReal x)) =
      Cell.ofNode (Cell.width threshold) (.leaf ⟨x, y⟩) := by
  have wide : Real.sqrt threshold ≤ Cell.width threshold := le_maxOr _ _
  have first : Cell.coordinate (Cell.width threshold) (0 : ℝ) = 0 :=
    coordinate_eq_zero (le_refl 0) (by linarith)
  have second : Cell.coordinate (Cell.width threshold) y = 0 :=
    coordinate_eq_zero nonneg (by linarith)
  rw [Cell.ofNode, Cell.ofNode]
  dsimp only [Node.leaf, Amplitude.ofReal]
  rw [first, second]

/-- Two leaves that differ by a small imaginary part are merged. -/
theorem PairAt.reduce_of_imaginary {root : NodeId} {c : Amplitude ℝ} {x y : ℝ}
    (pair : s.PairAt root c (.ofReal x) ⟨x, y⟩) (ordered : s.Ordered) (yNonneg : 0 ≤ y)
    (tiny : 4 * (y * y) < s.threshold) (lead : s.threshold < x * x) :
    s.reduce root = (twins s.threshold c (.ofReal x), 2) := by
  have nonneg : 0 ≤ s.threshold := (by positivity : 0 ≤ 4 * (y * y)).trans tiny.le
  have lowScaled : s.negligible (.ofReal x) = false := by
    rw [negligible_eq_false, Amplitude.normSq_ofReal]
    exact lead
  have highScaled : s.negligible ⟨x, y⟩ = false := by
    rw [negligible_eq_false]
    exact lead.trans_le (le_add_of_nonneg_right (mul_self_nonneg y))
  have near : s.negligible (.ofReal x - ⟨x, y⟩) = true := by
    rw [negligible, Amplitude.negligible_iff, Amplitude.toComplex_sub, Complex.normSq_apply]
    simp only [Amplitude.ofReal, Complex.sub_re, Complex.sub_im]
    norm_num
    nlinarith [mul_self_nonneg y]
  have narrow : 2 * y < Real.sqrt s.threshold := Real.lt_sqrt_of_sq_lt (by nlinarith)
  exact pair.reduce_eq ordered nonneg lowScaled highScaled near (cell_leaf_eq x yNonneg narrow)

end NodeStore

namespace Tree

variable {t : Tree ℝ} {threshold : ℝ}

/-- A tree whose nodes come after their branches and whose leaves lie on the level of its width. -/
structure Leveled (t : Tree ℝ) : Prop where
  ordered : t.store.Ordered
  layered : t.store.Layered t.width t.root

theorem Formed.leveled (formed : t.Formed threshold) : t.Leveled where
  ordered := formed.tolerant.toOrdered
  layered := formed.onLevel.layered formed.tolerant.toOrdered (zero_add _)

noncomputable def change (t : Tree ℝ) (index : BasisIndex) : ℂ :=
  (t.reduce.amplitude index).toComplex - (t.amplitude index).toComplex

noncomputable def moduli (t : Tree ℝ) (index : BasisIndex) : List ℝ :=
  t.store.pathModuli index t.width 0 t.root

/-- A reduction moves an amplitude by at most the drift of its path times the root. -/
theorem Leveled.norm_change_le (leveled : t.Leveled) (nonneg : 0 ≤ t.threshold)
    (index : BasisIndex) :
    ‖t.change index‖ ≤ NodeStore.drift (Real.sqrt t.threshold) ‖(t.store.scale t.root).toComplex‖ 0
      (t.moduli index) := by
  obtain ⟨ordered, layered⟩ := leveled
  obtain ⟨r, stores, reduces⟩ := ordered.reduce_reduces nonneg t.root
  have reduced : t.reduce = ofStore r.store (t.store.reduce t.root).2 t.width := by
    rw [stores]
    rfl
  have unchanged : ‖(0 : Amplitude ℝ).toComplex - (0 : Amplitude ℝ).toComplex‖ ≤
      NodeStore.drift (Real.sqrt t.threshold) ‖(t.store.scale t.root).toComplex‖ 0
        (t.moduli index) := by
    rw [sub_self, norm_zero]
    exact NodeStore.drift_nonneg (Real.sqrt_nonneg _) (norm_nonneg _) (le_refl 0)
      (t.store.pathModuli_nonneg index _ _ _)
  have mirrors : t.store.Mirrors r.store t.root (t.store.reduce t.root).2 := reduces.mirrors
  rw [change, reduced, amplitude_ofStore]
  change ‖_ - Amplitude.toComplex (if t.store.isZero t.root then 0 else
    follow t.store index t.width 0 t.root (t.store.get t.root).scale)‖ ≤ _
  cases empty : t.store.isZero t.root with
  | true =>
      rw [mirrors.eq_zero_of_isZero empty]
      exact unchanged
  | false =>
      by_cases dropped : (t.store.reduce t.root).2 = 0
      · rw [dropped, if_neg Bool.false_ne_true,
          mirrors.follow_of_dropped dropped layered empty]
        exact unchanged
      · have close := mirrors.close dropped
        have fresh : (r.store.get (t.store.reduce t.root).2).scale = (t.store.get t.root).scale :=
          reduces.fresh close.positive
        rw [reduces.indexed.isZero_eq_false close.positive close.stored,
          NodeStore.scale_eq_of_not_isZero empty]
        refine mirrors.follow_near reduces.indexed layered empty dropped ?_
        rw [fresh, sub_self, norm_zero]

/-! ## A large root -/

theorem leveled_of_pair {top a b : Amplitude ℝ} (width : t.width = 1) (ordered : t.store.Ordered)
    (pair : t.store.PairAt t.root top a b) : t.Leveled := by
  obtain ⟨-, low, high, found, lowLeaf, highLeaf⟩ := pair
  refine ⟨ordered, ?_⟩
  rw [width]
  intro _ first second branches
  rw [found] at branches
  cases branches
  constructor
  · intro nonzero
    rw [lowLeaf.get_eq nonzero]
    rfl
  · intro nonzero
    rw [highLeaf.get_eq nonzero]
    rfl

theorem amplitude_of_pair {top a b : Amplitude ℝ} (width : t.width = 1)
    (pair : t.store.PairAt t.root top a b) (scaled : t.store.negligible b = false) :
    t.amplitude 1 = top * b := by
  obtain ⟨nonzero, low, high, found, -, highLeaf⟩ := pair
  have highNonzero := highLeaf.isZero_eq.trans scaled
  have upper : (if BasisIndex.bit 1 0 then high else low) = high := rfl
  rw [amplitude, if_neg (by simp [nonzero]), width,
    follow_of_branches (by rw [found]), upper, if_neg (by simp [highNonzero]), follow, found,
    highLeaf.get_eq highNonzero]
  rfl

/-- Merging two leaves that differ by an imaginary part `y` moves the upper amplitude by `y` times
the root. -/
theorem normSq_change_of_pair {top : Amplitude ℝ} {x y : ℝ} (width : t.width = 1)
    (ordered : t.store.Ordered) (pair : t.store.PairAt t.root top (.ofReal x) ⟨x, y⟩)
    (yPositive : 0 < y) (tiny : 16 * (y * y) ≤ t.threshold) (lead : t.threshold < x * x) :
    Complex.normSq (t.change 1) = Complex.normSq top.toComplex * (y * y) := by
  have lowScaled : t.store.negligible (.ofReal x) = false := by
    rw [NodeStore.negligible_eq_false, Amplitude.normSq_ofReal]
    exact lead
  have highScaled : t.store.negligible ⟨x, y⟩ = false := by
    rw [NodeStore.negligible_eq_false]
    exact lead.trans_le (le_add_of_nonneg_right (mul_self_nonneg y))
  have difference : Complex.normSq (Amplitude.ofReal x - ⟨x, y⟩).toComplex = y * y := by
    rw [Amplitude.toComplex_sub, Complex.normSq_apply]
    simp [Amplitude.ofReal]
  have small : 4 * (y * y) < t.threshold := by nlinarith
  have reduced : t.reduce = ofStore (NodeStore.twins t.threshold top (.ofReal x)) 2 t.width := by
    rw [reduce, pair.reduce_of_imaginary ordered yPositive.le small lead]
    rfl
  have twins := NodeStore.pairAt_twins (a := .ofReal x) pair.scaled
  rw [change, reduced, amplitude_of_pair width pair highScaled,
    amplitude_of_pair (t := ofStore (NodeStore.twins t.threshold top (.ofReal x)) 2 t.width) width
      twins lowScaled, Amplitude.toComplex_mul,
    Amplitude.toComplex_mul, ← mul_sub, Complex.normSq_mul, ← Amplitude.toComplex_sub, difference]

theorem exists_tiny_and_large {limit : ℝ} (positive : 0 < limit) (bound : ℝ) :
    ∃ y scale : ℝ, 0 < y ∧ y * y ≤ limit ∧ 1 ≤ scale ∧ bound < scale * scale * (y * y) := by
  have squared := Real.mul_self_sqrt positive.le
  refine ⟨Real.sqrt limit, 1 + |bound| / limit, Real.sqrt_pos.mpr positive, squared.le,
    le_add_of_nonneg_right (by positivity), ?_⟩
  have exceeds : bound < (1 + |bound| / limit) * limit := by
    rw [add_mul, div_mul_cancel₀ _ positive.ne']
    linarith [le_abs_self bound]
  have large : 1 ≤ 1 + |bound| / limit := le_add_of_nonneg_right (by positivity)
  rw [squared]
  refine exceeds.trans_le ?_
  gcongr
  exact le_mul_of_one_le_left (zero_le_one.trans large) large

theorem pairAt_leafPair {top a b : Amplitude ℝ} (scaled : top.negligible threshold = false) :
    (NodeStore.leafPair threshold top a b).PairAt 3 top a b :=
  ⟨Bool.or_eq_false_iff.mpr ⟨rfl, scaled⟩, 1, 2, rfl,
    ⟨(by decide : 1 < 4), rfl, fun _ => rfl⟩, ⟨(by decide : 2 < 4), rfl, fun _ => rfl⟩⟩

/-- The change of an amplitude by a reduction has no bound, since the root has none. -/
theorem exists_large_change (positive : 0 < threshold) (small : threshold < 1) (bound : ℝ) :
    ∃ t : Tree ℝ, t.Leveled ∧ t.threshold = threshold ∧ bound < Complex.normSq (t.change 1) := by
  obtain ⟨y, scale, yPositive, tiny, large, exceeds⟩ :=
    exists_tiny_and_large (by linarith : 0 < threshold / 16) bound
  have scaled : (Amplitude.ofReal scale).negligible threshold = false := by
    rw [Amplitude.negligible_eq_false, Amplitude.normSq_ofReal]
    nlinarith
  have pair := pairAt_leafPair (a := .ofReal 1) (b := ⟨1, y⟩) scaled
  refine ⟨ofStore (NodeStore.leafPair threshold (.ofReal scale) (.ofReal 1) ⟨1, y⟩) 3 1,
    leveled_of_pair rfl NodeStore.ordered_leafPair pair, rfl, ?_⟩
  rwa [normSq_change_of_pair rfl NodeStore.ordered_leafPair pair yPositive
    (by change 16 * (y * y) ≤ threshold; linarith) (by rwa [mul_one]), Amplitude.normSq_ofReal]

/-- The same holds for trees that operations lead to, if two leaves below one
node can both be kept. -/
theorem exists_large_change_of_made (positive : 0 < threshold) (small : threshold < 1 / 2)
    (bound : ℝ) : ∃ t, MadeAt threshold t ∧ bound < Complex.normSq (t.change 1) := by
  obtain ⟨y, scale, yPositive, limited, large, exceeds⟩ := exists_tiny_and_large
    (lt_min (by linarith : 0 < threshold / 16) (by linarith : 0 < (1 - 2 * threshold) / 2)) bound
  have tiny := limited.trans (min_le_left _ _)
  have lead := limited.trans (min_le_right _ _)
  have rest : 0 ≤ (1 - y * y) / 2 := by linarith
  obtain ⟨x, xNonneg, square⟩ : ∃ x : ℝ, 0 ≤ x ∧ x * x = (1 - y * y) / 2 :=
    ⟨_, Real.sqrt_nonneg _, Real.mul_self_sqrt rest⟩
  have rootScaled : (Amplitude.ofReal scale).negligible threshold = false := by
    rw [Amplitude.negligible_eq_false, Amplitude.normSq_ofReal]
    nlinarith
  have lowScaled : (Amplitude.ofReal x).negligible threshold = false := by
    rw [Amplitude.negligible_eq_false, Amplitude.normSq_ofReal]
    linarith
  have highScaled : (Amplitude.mk x y).negligible threshold = false := by
    rw [Amplitude.negligible_eq_false, Complex.normSq_apply]
    change threshold < x * x + y * y
    nlinarith
  obtain ⟨ordered, thresholds, pair⟩ := oneQubit_root_of_unit xNonneg
    (by rw [Amplitude.normSq]; linarith) (by linarith) rootScaled lowScaled highScaled
  refine ⟨_, madeAt_oneQubit threshold (.ofReal scale) (.ofReal x) ⟨x, y⟩, ?_⟩
  rwa [normSq_change_of_pair rfl ordered pair yPositive (by rw [thresholds]; linarith)
    (by rw [thresholds]; linarith), Amplitude.normSq_ofReal]

/-- A reduction moves an amplitude by a part of the root that depends on the threshold and the path.
The changes are within the threshold just if it is zero; between zero and one half they have no
bound, even for the trees that operations lead to. -/
theorem amplitude_reduce_drift (nonneg : 0 ≤ threshold) (small : threshold < 1) :
    (∀ t : Tree ℝ, t.Leveled → t.threshold = threshold → ∀ index,
      ‖t.change index‖ ≤ ‖(t.store.scale t.root).toComplex‖ *
        (((t.moduli index).map (· + Real.sqrt threshold)).prod - (t.moduli index).prod)) ∧
    ((∀ t : Tree ℝ, t.Leveled → t.threshold = threshold → ∀ index,
      Complex.normSq (t.change index) ≤ threshold) ↔ threshold = 0) ∧
    (0 < threshold → threshold < 1 / 2 → ∀ bound : ℝ, ∃ t, MadeAt threshold t ∧
      bound < Complex.normSq (t.change 1)) := by
  have drifts (t : Tree ℝ) (leveled : t.Leveled) (thresholds : t.threshold = threshold)
      (index : BasisIndex) : ‖t.change index‖ ≤ ‖(t.store.scale t.root).toComplex‖ *
        (((t.moduli index).map (· + Real.sqrt threshold)).prod - (t.moduli index).prod) := by
    have drift := leveled.norm_change_le (by rwa [thresholds]) index
    rwa [NodeStore.drift, add_zero, ← mul_sub, thresholds] at drift
  refine ⟨drifts, ⟨fun within => ?_, ?_⟩, exists_large_change_of_made⟩
  · by_contra nonzero
    obtain ⟨t, leveled, thresholds, exceeds⟩ :=
      exists_large_change (lt_of_le_of_ne nonneg (Ne.symm nonzero)) small threshold
    exact not_lt.mpr (within t leveled thresholds 1) exceeds
  · rintro rfl t leveled thresholds index
    have drift := drifts t leveled thresholds index
    rw [Real.sqrt_zero, funext add_zero, List.map_id', sub_self, mul_zero, norm_le_zero_iff] at drift
    rw [drift, map_zero]

/-- A leaf on level one moves by at most the square root of the threshold times the modulus of the
root, which may exceed one. -/
theorem amplitude_reduce_drift_pair :
    ‖(ofStore (NodeStore.leafPair (1 / 4) 1 1 (.ofReal (11 / 10))) 3 1).change 1‖ ≤ 1 / 2 ∧
      ∃ t, MadeAt (1 / 4) t ∧ 1 < Complex.normSq (t.change 1) := by
  obtain ⟨drifts, -, unbounded⟩ :=
    amplitude_reduce_drift (show (0 : ℝ) ≤ 1 / 4 by norm_num) (by norm_num)
  refine ⟨?_, unbounded (by norm_num) (by norm_num) 1⟩
  have scaled {x : ℝ} (large : 1 ≤ x) : (Amplitude.ofReal x).negligible (1 / 4) = false := by
    rw [Amplitude.negligible_eq_false, Amplitude.normSq_ofReal]
    nlinarith
  have pair := pairAt_leafPair (a := 1) (b := .ofReal (11 / 10)) (scaled (le_refl 1))
  have root : (NodeStore.leafPair (1 / 4) 1 1 (.ofReal (11 / 10))).scale 3 = 1 :=
    NodeStore.scale_eq_of_not_isZero pair.nonzero
  have moduli : (NodeStore.leafPair (1 / 4) 1 1 (.ofReal (11 / 10))).pathModuli 1 1 0 3 =
      [11 / 10] := by
    have upper : (NodeStore.leafPair (1 / 4) 1 1 (.ofReal (11 / 10))).isZero 2 = false :=
      scaled (by norm_num)
    have modulus : ‖(Amplitude.ofReal (11 / 10)).toComplex‖ = 11 / 10 := by
      change ‖((11 / 10 : ℝ) : ℂ)‖ = 11 / 10
      rw [Complex.norm_real]
      norm_num
    rw [NodeStore.pathModuli_of_branches rfl, show BasisIndex.bit 1 0 = true from rfl, if_pos rfl,
      upper, if_neg Bool.false_ne_true, NodeStore.pathModuli]
    exact congrArg (· :: []) modulus
  have half : Real.sqrt (1 / 4) = 1 / 2 := by
    rw [show (1 / 4 : ℝ) = (1 / 2) ^ 2 by norm_num]
    exact Real.sqrt_sq (by norm_num)
  have drift := drifts (ofStore (NodeStore.leafPair (1 / 4) 1 1 (.ofReal (11 / 10))) 3 1)
    (leveled_of_pair rfl NodeStore.ordered_leafPair pair) rfl 1
  refine drift.trans ?_
  change ‖((NodeStore.leafPair (1 / 4) 1 1 (.ofReal (11 / 10))).scale 3).toComplex‖ *
    ((((NodeStore.leafPair (1 / 4) 1 1 (.ofReal (11 / 10))).pathModuli 1 1 0 3).map
      (· + Real.sqrt (1 / 4))).prod -
      ((NodeStore.leafPair (1 / 4) 1 1 (.ofReal (11 / 10))).pathModuli 1 1 0 3).prod) ≤ 1 / 2
  rw [root, moduli, half, Amplitude.toComplex_one, norm_one]
  norm_num

end Tree

end AmplitudeTree
