import AmplitudeTree.Proofs.NodeStore.Compare

/-!
# Comparison of plain trees

The plain tree of a node shares nothing and leaves nothing out: a subtree without amplitude keeps its
scale and its branches.  Two trees agree if both are without amplitude, or neither is, their scales
differ by a negligible amount and they have the same shape; they have the same shape if both are leaves
or their branches agree.  Nodes are compared as their trees are, whatever they share, and the comparison
is reflexive and symmetric.
-/

namespace AmplitudeTree

/-- A tree of scales that shares nothing. -/
inductive PlainTree (R : Type) where
  | leaf (scale : Amplitude R)
  | fork (scale : Amplitude R) (low high : PlainTree R)

namespace PlainTree

section Comparison

variable {R : Type} [Scalar R]

def scale : PlainTree R → Amplitude R
  | leaf scale => scale
  | fork scale _ _ => scale

def isZero (threshold : R) (t : PlainTree R) : Bool := t.scale.negligible threshold

def agreesWith (threshold : R) (t u : PlainTree R) (shape : Bool) : Bool :=
  match t.isZero threshold, u.isZero threshold with
  | true, true => true
  | false, false => (t.scale - u.scale).negligible threshold && shape
  | _, _ => false

def sameShape (threshold : R) : PlainTree R → PlainTree R → Bool
  | leaf _, leaf _ => true
  | fork _ low high, fork _ low' high' =>
      agreesWith threshold low low' (sameShape threshold low low') &&
        agreesWith threshold high high' (sameShape threshold high high')
  | _, _ => false

def agrees (threshold : R) (t u : PlainTree R) : Bool :=
  agreesWith threshold t u (sameShape threshold t u)

theorem sameShape_fork (threshold : R) (c d : Amplitude R) (low high low' high' : PlainTree R) :
    sameShape threshold (fork c low high) (fork d low' high') =
      (agrees threshold low low' && agrees threshold high high') := rfl

end Comparison

theorem agreesWith_comm (threshold : ℝ) (t u : PlainTree ℝ) (shape : Bool) :
    agreesWith threshold t u shape = agreesWith threshold u t shape := by
  have near : (t.scale - u.scale).negligible threshold = (u.scale - t.scale).negligible threshold := by
    rw [Bool.eq_iff_iff, Amplitude.negligible_iff, Amplitude.negligible_iff, Amplitude.toComplex_sub,
      Amplitude.toComplex_sub, ← Complex.normSq_neg, neg_sub]
  rw [agreesWith, agreesWith, near]
  cases t.isZero threshold <;> cases u.isZero threshold <;> rfl

theorem sameShape_comm (threshold : ℝ) (t u : PlainTree ℝ) :
    sameShape threshold t u = sameShape threshold u t := by
  induction t generalizing u with
  | leaf c => cases u <;> rfl
  | fork c low high ihLow ihHigh =>
      cases u with
      | leaf d => rfl
      | fork d low' high' =>
          rw [sameShape, sameShape, ihLow, ihHigh, agreesWith_comm threshold low,
            agreesWith_comm threshold high]

theorem agrees_comm (threshold : ℝ) (t u : PlainTree ℝ) : agrees threshold t u = agrees threshold u t := by
  rw [agrees, agrees, sameShape_comm, agreesWith_comm]

end PlainTree

namespace NodeStore

/-- The plain tree below a node.  The zero node is a leaf without amplitude. -/
inductive Unfolds {R : Type} [Scalar R] (s : NodeStore R) : NodeId → PlainTree R → Prop where
  | zero : s.Unfolds 0 (.leaf 0)
  | leaf {id : NodeId} (nonzero : id ≠ 0) (found : (s.get id).branches = none) :
      s.Unfolds id (.leaf (s.get id).scale)
  | fork {id low high : NodeId} {t u : PlainTree R} (nonzero : id ≠ 0)
      (found : (s.get id).branches = some (low, high)) (lowTree : s.Unfolds low t)
      (highTree : s.Unfolds high u) : s.Unfolds id (.fork (s.get id).scale t u)

variable {s : NodeStore ℝ} {a b id : NodeId} {t u : PlainTree ℝ}

/-! ## Trees of nodes -/

theorem Unfolds.unique (unfolds : s.Unfolds id t) (unfolds' : s.Unfolds id u) : t = u := by
  induction unfolds generalizing u with
  | zero =>
      cases unfolds' with
      | zero => rfl
      | leaf nonzero => exact absurd rfl nonzero
      | fork nonzero => exact absurd rfl nonzero
  | leaf nonzero found =>
      cases unfolds' with
      | zero => exact absurd rfl nonzero
      | leaf => rfl
      | fork _ found' => cases found.symm.trans found'
  | fork nonzero found _ _ ihLow ihHigh =>
      cases unfolds' with
      | zero => exact absurd rfl nonzero
      | leaf _ found' => cases found.symm.trans found'
      | fork _ found' lowTree highTree =>
          cases found.symm.trans found'
          rw [ihLow lowTree, ihHigh highTree]

theorem Ordered.exists_unfolds (ordered : s.Ordered) (id : NodeId) : ∃ t, s.Unfolds id t := by
  induction id using Nat.strong_induction_on with
  | _ id ih =>
      rcases eq_or_ne id 0 with rfl | nonzero
      · exact ⟨_, .zero⟩
      · match found : (s.get id).branches with
        | none => exact ⟨_, .leaf nonzero found⟩
        | some (low, high) =>
            obtain ⟨lowLt, highLt⟩ := ordered.branches_lt found
            obtain ⟨t, lowTree⟩ := ih low lowLt
            obtain ⟨u, highTree⟩ := ih high highLt
            exact ⟨_, .fork nonzero found lowTree highTree⟩

theorem Unfolds.children_of_leaf (ordered : s.Ordered) {c : Amplitude ℝ}
    (unfolds : s.Unfolds id (.leaf c)) : s.children id = none := by
  cases unfolds with
  | leaf _ found => exact children_eq_none found
  | zero =>
      match found : (s.get 0).branches with
      | none => exact children_eq_none found
      | some (low, high) => exact absurd (ordered.branches_lt found).1 (Nat.not_lt_zero low)

theorem Unfolds.children_of_fork (ordered : s.Ordered) {c : Amplitude ℝ}
    (unfolds : s.Unfolds id (.fork c t u)) :
    ∃ branches, s.children id = some branches ∧ s.Unfolds branches.low t ∧
      s.Unfolds branches.high u := by
  cases unfolds with
  | fork _ found lowTree highTree => exact ⟨_, ordered.children_eq found, lowTree, highTree⟩

theorem Unfolds.isZero_eq (nonnegative : 0 ≤ s.threshold) (unfolds : s.Unfolds id t) :
    s.isZero id = t.isZero s.threshold := by
  cases unfolds with
  | zero =>
      have zero : Complex.normSq (0 : Amplitude ℝ).toComplex ≤ s.threshold := by simpa using nonnegative
      exact ((Amplitude.negligible_iff _ _).mpr zero).symm
  | leaf nonzero =>
      rw [isZero, beq_eq_false_iff_ne.mpr nonzero]
      rfl
  | fork nonzero =>
      rw [isZero, beq_eq_false_iff_ne.mpr nonzero]
      rfl

theorem Unfolds.scale_eq (unfolds : s.Unfolds id t) (some : s.isZero id = false) :
    (s.get id).scale = t.scale := by
  cases unfolds with
  | zero => cases some
  | leaf => rfl
  | fork => rfl

/-! ## Comparison of nodes -/

theorem Unfolds.unfoldedAgrees_eq (nonnegative : 0 ≤ s.threshold) (unfolds : s.Unfolds a t)
    (unfolds' : s.Unfolds b u) (shapes : s.unfoldedSameShape a b = t.sameShape s.threshold u) :
    s.unfoldedAgrees a b = t.agrees s.threshold u := by
  rw [unfoldedAgrees, PlainTree.agrees, PlainTree.agreesWith, ← unfolds.isZero_eq nonnegative,
    ← unfolds'.isZero_eq nonnegative, shapes]
  cases aZero : s.isZero a <;> cases bZero : s.isZero b
  · rw [unfolds.scale_eq aZero, unfolds'.scale_eq bZero]
    rfl
  all_goals rfl

/-- The comparison of all paths below two nodes is the one of their trees. -/
theorem Unfolds.unfoldedSameShape_eq (ordered : s.Ordered) (nonnegative : 0 ≤ s.threshold)
    (unfolds : s.Unfolds a t) (unfolds' : s.Unfolds b u) :
    s.unfoldedSameShape a b = t.sameShape s.threshold u := by
  induction t generalizing a b u with
  | leaf c =>
      rw [NodeStore.unfoldedSameShape_eq, unfolds.children_of_leaf ordered]
      cases u with
      | leaf d =>
          rw [unfolds'.children_of_leaf ordered]
          rfl
      | fork d low' high' =>
          obtain ⟨_, found', -⟩ := unfolds'.children_of_fork ordered
          rw [found']
          rfl
  | fork c low high ihLow ihHigh =>
      obtain ⟨_, found, lowTree, highTree⟩ := unfolds.children_of_fork ordered
      rw [NodeStore.unfoldedSameShape_eq, found]
      cases u with
      | leaf d =>
          rw [unfolds'.children_of_leaf ordered]
          rfl
      | fork d low' high' =>
          obtain ⟨_, found', lowTree', highTree'⟩ := unfolds'.children_of_fork ordered
          rw [found', PlainTree.sameShape_fork]
          dsimp only
          rw [lowTree.unfoldedAgrees_eq nonnegative lowTree' (ihLow lowTree lowTree'),
            highTree.unfoldedAgrees_eq nonnegative highTree' (ihHigh highTree highTree')]

theorem Unfolds.sameShape_eq (ordered : s.Ordered) (nonnegative : 0 ≤ s.threshold)
    (unfolds : s.Unfolds a t) (unfolds' : s.Unfolds b u) :
    s.sameShape a b = t.sameShape s.threshold u := by
  rw [NodeStore.sameShape_eq nonnegative, unfolds.unfoldedSameShape_eq ordered nonnegative unfolds']

theorem Unfolds.agrees_eq (ordered : s.Ordered) (nonnegative : 0 ≤ s.threshold)
    (unfolds : s.Unfolds a t) (unfolds' : s.Unfolds b u) :
    s.agrees a b = t.agrees s.threshold u := by
  rw [NodeStore.agrees_eq nonnegative, unfolds.unfoldedAgrees_eq nonnegative unfolds'
    (unfolds.unfoldedSameShape_eq ordered nonnegative unfolds')]

/-- Comparing two nodes that are remembered pair by pair decides whether their plain trees agree, or
have the same shape.  Both relations are reflexive and symmetric. -/
theorem comparison_of_trees (ordered : s.Ordered) (nonnegative : 0 ≤ s.threshold) :
    (∀ id, ∃! t, s.Unfolds id t) ∧
    (∀ a b t u, s.Unfolds a t → s.Unfolds b u →
      s.agrees a b = t.agrees s.threshold u ∧ s.sameShape a b = t.sameShape s.threshold u) ∧
    (∀ a, s.agrees a a = true ∧ s.sameShape a a = true) ∧
    ∀ a b, s.agrees a b = s.agrees b a ∧ s.sameShape a b = s.sameShape b a := by
  refine ⟨fun id => ?_, fun a b t u unfolds unfolds' => ?_, fun a => ?_, fun a b => ?_⟩
  · obtain ⟨t, unfolds⟩ := ordered.exists_unfolds id
    exact ⟨t, unfolds, fun _ unfolds' => unfolds'.unique unfolds⟩
  · exact ⟨unfolds.agrees_eq ordered nonnegative unfolds',
      unfolds.sameShape_eq ordered nonnegative unfolds'⟩
  · have shape := unfoldedSameShape_self nonnegative a
    rw [agrees_eq nonnegative, sameShape_eq nonnegative]
    exact ⟨unfoldedAgrees_self nonnegative shape, shape⟩
  · obtain ⟨t, unfolds⟩ := ordered.exists_unfolds a
    obtain ⟨u, unfolds'⟩ := ordered.exists_unfolds b
    rw [unfolds.agrees_eq ordered nonnegative unfolds', unfolds'.agrees_eq ordered nonnegative unfolds,
      unfolds.sameShape_eq ordered nonnegative unfolds',
      unfolds'.sameShape_eq ordered nonnegative unfolds]
    exact ⟨t.agrees_comm _ u, t.sameShape_comm _ u⟩

/-- Two nodes over the same branches, which differ by a negligible amount.  The one without
amplitude does not have the shape of the node above it. -/
theorem comparison_of_shared_trees :
    let s : NodeStore ℝ := ⟨#[.leaf 0, .leaf 1, .leaf ⟨5 / 4, 0⟩, ⟨⟨1 / 4, 0⟩, some (1, 2)⟩,
      ⟨1, some (1, 3)⟩, ⟨1, some (2, 0)⟩, ⟨1, some (4, 4)⟩, ⟨1, some (5, 5)⟩], 1 / 4⟩
    s.Ordered ∧ 0 ≤ s.threshold ∧ s.isZero 3 = true ∧ s.agrees 6 7 = true ∧ s.agrees 7 6 = true ∧
      s.sameShape 3 4 = false ∧ s.sameShape 4 3 = false := by
  intro s
  have nonnegative : 0 ≤ s.threshold := by
    change (0 : ℝ) ≤ 1 / 4
    norm_num
  have ordered : s.Ordered := by
    refine ⟨Nat.succ_pos 7, fun {id low high} branches => ?_⟩
    match id, branches with
    | 3, branches | 4, branches | 5, branches | 6, branches | 7, branches =>
        cases branches
        decide
    | id + 8, branches =>
        rw [get_of_size_le (s := s) (Nat.le_add_left 8 id)] at branches
        cases branches
  obtain ⟨-, compares, -, symmetric⟩ := comparison_of_trees ordered nonnegative
  have one : s.Unfolds 1 (.leaf 1) := .leaf one_ne_zero rfl
  have more : s.Unfolds 2 (.leaf ⟨5 / 4, 0⟩) := .leaf two_ne_zero rfl
  have faint : s.Unfolds 3 (.fork ⟨1 / 4, 0⟩ (.leaf 1) (.leaf ⟨5 / 4, 0⟩)) :=
    .fork (by decide) rfl one more
  have four : s.Unfolds 4 (.fork 1 _ _) := .fork (by decide) rfl one faint
  have five : s.Unfolds 5 (.fork 1 _ _) := .fork (by decide) rfl more .zero
  have six : s.Unfolds 6 (.fork 1 _ _) := .fork (by decide) rfl four four
  have seven : s.Unfolds 7 (.fork 1 _ _) := .fork (by decide) rfl five five
  have small (a : Amplitude ℝ) (bound : a.normSq ≤ 1 / 4) : a.negligible s.threshold = true :=
    (Scalar.le_iff _ _).mpr bound
  have large (a : Amplitude ℝ) (bound : 1 / 4 < a.normSq) : a.negligible s.threshold = false :=
    Bool.eq_false_iff.mpr (mt (Scalar.le_iff _ _).mp (not_le.mpr bound))
  have empty := small ⟨1 / 4, 0⟩ (by norm_num [Amplitude.normSq])
  have some := large 1 (by rw [Amplitude.normSq_one]; norm_num)
  have some' := large ⟨5 / 4, 0⟩ (by norm_num [Amplitude.normSq])
  have near := small (1 - 1) (by norm_num [Amplitude.normSq_eq])
  have near' := small (1 - ⟨5 / 4, 0⟩) (by norm_num [Amplitude.normSq_eq, Complex.normSq_apply])
  have none := small 0 (by norm_num [Amplitude.normSq_zero])
  have agreed : s.agrees 6 7 = true := by
    rw [(compares _ _ _ _ six seven).1]
    simp only [PlainTree.agrees, PlainTree.agreesWith, PlainTree.sameShape, PlainTree.isZero,
      PlainTree.scale, empty, some, some', near, near', none, Bool.and_self]
  have differ : s.sameShape 3 4 = false := by
    rw [(compares _ _ _ _ faint four).2]
    simp only [PlainTree.agreesWith, PlainTree.sameShape, PlainTree.isZero, PlainTree.scale, empty,
      some, some', near, Bool.and_true, Bool.and_false]
  exact ⟨ordered, nonnegative, empty, agreed, (symmetric 7 6).1.trans agreed, differ,
    (symmetric 4 3).2.trans differ⟩

end NodeStore

end AmplitudeTree
