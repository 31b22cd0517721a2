import AmplitudeTree.NodeStore.Reduce
import AmplitudeTree.Proofs.NodeStore.Walk

/-!
# Merging

A reduction lists every node it stores under its cell, and it never stores two nodes of one cell
whose scales count as equal.  Merging a node finds a stored one that agrees with it or appends it.
-/

namespace AmplitudeTree.NodeStore

deriving instance ReflBEq, LawfulBEq for Cell

namespace Reduction

variable {r : Reduction ℝ} {id : NodeId} {node : Node ℝ}

noncomputable def cell (r : Reduction ℝ) (node : Node ℝ) : Cell :=
  .ofNode (Cell.width r.store.threshold) node

noncomputable def members (r : Reduction ℝ) (cell : Cell) : List NodeId := r.cells.getD cell []

/-- Every stored node is listed in its cell, none is zero or superfluous, and those
of one cell differ. -/
structure Indexed (r : Reduction ℝ) : Prop where
  ordered : r.store.Ordered
  nonneg : 0 ≤ r.store.threshold
  member : ∀ {cell id}, id ∈ r.members cell →
    0 < id ∧ id < r.store.size ∧ r.cell (r.store.get id) = cell
  listed : ∀ {id}, 0 < id → id < r.store.size → id ∈ r.members (r.cell (r.store.get id))
  substantial : ∀ {id}, 0 < id → id < r.store.size → r.store.negligible (r.store.get id).scale = false
  forked : ∀ {id}, (r.store.get id).branches ≠ some (0, 0)
  apart : ∀ {id other}, 0 < id → id < other → other < r.store.size →
    r.cell (r.store.get id) = r.cell (r.store.get other) →
    r.store.negligible ((r.store.get id).scale - (r.store.get other).scale) = false

theorem Indexed.empty {threshold : ℝ} (nonneg : 0 ≤ threshold) :
    Indexed ⟨.empty threshold, ∅⟩ := by
  have none {id : NodeId} (positive : 0 < id) (stored : id < (NodeStore.empty threshold).size) :
      False := absurd stored (Nat.not_lt.mpr positive)
  constructor
  case ordered =>
    refine ⟨Nat.one_pos, fun found => ?_⟩
    rw [get_empty] at found
    cases found
  case nonneg => exact nonneg
  case member => simp [members]
  case listed => exact fun positive stored => (none positive stored).elim
  case substantial => exact fun positive stored => (none positive stored).elim
  case forked => simp [get_empty, Node.leaf]
  case apart => exact fun positive less stored => (none positive (less.trans stored)).elim

theorem Indexed.negligible_zero (indexed : r.Indexed) : r.store.negligible 0 = true := by
  rw [negligible, Amplitude.negligible_iff, Amplitude.toComplex_zero, Complex.normSq_zero]
  exact indexed.nonneg

theorem Indexed.isZero_iff (indexed : r.Indexed) (stored : id < r.store.size) :
    r.store.isZero id = true ↔ id = 0 := by
  rw [isZero, Bool.or_eq_true, beq_iff_eq, or_iff_left_iff_imp]
  intro small
  by_contra nonzero
  rw [indexed.substantial (Nat.pos_of_ne_zero nonzero) stored] at small
  cases small

theorem Indexed.isZero_eq_false (indexed : r.Indexed) (positive : 0 < id)
    (stored : id < r.store.size) : r.store.isZero id = false := by
  rw [← Bool.not_eq_true, indexed.isZero_iff stored]
  exact positive.ne'

theorem eq_of_cell_of_scale {node other : Node ℝ} (cells : r.cell node = r.cell other)
    (scales : node.scale = other.scale) : node = other := by
  have branches : node.branches = other.branches := congrArg Cell.branches cells
  cases node
  cases other
  simp_all

noncomputable def append (r : Reduction ℝ) (node : Node ℝ) : Reduction ℝ :=
  ⟨(r.store.push node).2, r.cells.insert (r.cell node) (r.members (r.cell node) ++ [r.store.size])⟩

theorem extends_append (r : Reduction ℝ) (node : Node ℝ) : r.store.Extends (r.append node).store :=
  extends_push r.store node

@[simp]
theorem size_append (r : Reduction ℝ) (node : Node ℝ) :
    (r.append node).store.size = r.store.size + 1 :=
  size_push r.store node

@[simp]
theorem get_append (r : Reduction ℝ) (node : Node ℝ) :
    (r.append node).store.get r.store.size = node :=
  get_push r.store node

theorem members_append (r : Reduction ℝ) (node : Node ℝ) (c : Cell) :
    (r.append node).members c =
      if r.cell node = c then r.members c ++ [r.store.size] else r.members c := by
  change (r.cells.insert _ _).getD c [] = _
  rw [Std.HashMap.getD_insert]
  by_cases same : r.cell node = c
  · rw [if_pos (beq_iff_eq.mpr same), if_pos same, same]
  · rw [if_neg (by rwa [beq_iff_eq]), if_neg same]
    rfl

def Novel (r : Reduction ℝ) (node : Node ℝ) : Prop :=
  ∀ id, 0 < id → id < r.store.size → r.cell (r.store.get id) = r.cell node →
    r.store.negligible ((r.store.get id).scale - node.scale) = false

/-- A node that no stored one agrees with can be appended. -/
theorem Indexed.append (indexed : r.Indexed) (substantial : r.store.negligible node.scale = false)
    (forked : node.branches ≠ some (0, 0))
    (below : ∀ low high, node.branches = some (low, high) →
      low < r.store.size ∧ high < r.store.size) (novel : r.Novel node) :
    (r.append node).Indexed := by
  have growth := r.extends_append node
  have old {id : NodeId} (stored : id < r.store.size) :
      (r.append node).store.get id = r.store.get id := growth.get_eq id stored
  have grown {id : NodeId} (stored : id < (r.append node).store.size) :
      id < r.store.size ∨ id = r.store.size := by
    rw [size_append] at stored
    exact Nat.lt_succ_iff_lt_or_eq.mp stored
  constructor
  case ordered => exact indexed.ordered.push below
  case nonneg => exact indexed.nonneg
  case member =>
    intro c id found
    have known (found : id ∈ r.members c) : 0 < id ∧ id < (r.append node).store.size ∧
        r.cell ((r.append node).store.get id) = c := by
      obtain ⟨positive, stored, cells⟩ := indexed.member found
      rw [old stored]
      exact ⟨positive, stored.trans_le growth.size_le, cells⟩
    rw [members_append] at found
    split at found
    · next same =>
        rcases List.mem_append.mp found with found | found
        · exact known found
        · obtain rfl := List.mem_singleton.mp found
          refine ⟨indexed.ordered.nonempty, by simp, ?_⟩
          rw [get_append]
          exact same
    · exact known found
  case listed =>
    intro id positive stored
    change id ∈ (r.append node).members (r.cell ((r.append node).store.get id))
    rw [members_append]
    rcases grown stored with stored | rfl
    · have listed := indexed.listed positive stored
      rw [old stored]
      split
      · exact List.mem_append_left _ listed
      · exact listed
    · rw [get_append, if_pos rfl]
      exact List.mem_append_right _ (List.mem_singleton_self _)
  case substantial =>
    intro id positive stored
    rcases grown stored with stored | rfl
    · rw [old stored]
      exact indexed.substantial positive stored
    · rwa [get_append]
  case forked =>
    intro id
    rcases lt_trichotomy id r.store.size with stored | rfl | outside
    · rw [old stored]
      exact indexed.forked
    · rwa [get_append]
    · rw [get_of_size_le (by rw [size_append]; exact outside)]
      exact Option.some_ne_none _ ∘ Eq.symm
  case apart =>
    intro id other positive less stored same
    rcases grown stored with stored | rfl
    · rw [old stored, old (less.trans stored)] at same ⊢
      exact indexed.apart positive less stored same
    · rw [old less, get_append] at same ⊢
      exact novel id positive less same

/-- Where a node is after it was merged: a stored node agrees with it, or it is appended. -/
inductive Placed (r : Reduction ℝ) (node : Node ℝ) : NodeId × Reduction ℝ → Prop where
  | found {id : NodeId} (positive : 0 < id) (stored : id < r.store.size)
      (cells : r.cell (r.store.get id) = r.cell node)
      (near : r.store.negligible ((r.store.get id).scale - node.scale) = true) :
      Placed r node (id, r)
  | appended (novel : r.Novel node) : Placed r node (r.store.size, r.append node)

/-- A merge searches all nodes that may agree with the one it is given. -/
theorem Indexed.merge_placed (indexed : r.Indexed) (node : Node ℝ) :
    r.Placed node (r.merge node) := by
  unfold merge
  dsimp only
  split
  · next id found =>
      obtain ⟨positive, stored, cells⟩ := indexed.member (List.mem_of_find?_eq_some found)
      exact .found positive stored cells (by simpa using List.find?_some found)
  · next missing =>
      refine .appended fun id positive stored cells => ?_
      have listed : id ∈ r.members (r.cell node) := cells ▸ indexed.listed positive stored
      exact Bool.not_eq_true _ ▸ List.find?_eq_none.mp missing id listed

theorem Indexed.merge_of_novel (indexed : r.Indexed) (novel : r.Novel node) :
    r.merge node = (r.store.size, r.append node) := by
  have placed := indexed.merge_placed node
  generalize r.merge node = result at placed
  cases placed with
  | found positive stored cells near =>
      rw [novel _ positive stored cells] at near
      cases near
  | appended => rfl

theorem Indexed.merge_of_near (indexed : r.Indexed) (positive : 0 < id) (stored : id < r.store.size)
    (cells : r.cell (r.store.get id) = r.cell node)
    (near : r.store.negligible ((r.store.get id).scale - node.scale) = true) :
    ∃ found, 0 < found ∧ found < r.store.size ∧ r.merge node = (found, r) := by
  have placed := indexed.merge_placed node
  generalize r.merge node = result at placed
  cases placed with
  | found positive stored => exact ⟨_, positive, stored, rfl⟩
  | appended novel =>
      rw [novel id positive stored cells] at near
      cases near

theorem size_merge_le (r : Reduction ℝ) (node : Node ℝ) :
    (r.merge node).2.store.size ≤ r.store.size + 1 := by
  unfold merge
  dsimp only
  split
  · exact Nat.le_succ _
  · exact (size_push r.store node).le

end Reduction

/-- A reduction merges leaves, and other nodes unless both branches have become zero. -/
theorem reduceVisit_folds {R : Type} [Scalar R] (s : NodeStore R) :
    s.Folds s.reduceVisit (fun id r => r.merge (s.get id)) fun id _ _ low high r =>
      if low == 0 && high == 0 then (0, r) else r.merge ⟨(s.get id).scale, some (low, high)⟩ where
  leaf_eq leaf _ := by rw [reduceVisit, leaf]
  fork_eq branches _ := by rw [reduceVisit, branches]

end AmplitudeTree.NodeStore
