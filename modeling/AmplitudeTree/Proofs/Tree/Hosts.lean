import AmplitudeTree.Proofs.Tree.Basic
import AmplitudeTree.Tree.Resize

/-!
# Hosts

The hosts of a range of qubits are the nodes on its first level that the root leads to.  When every
host is replaced by a node whose amplitudes are those of the host up to factors, for an assignment
that is read in another way from the range on, the same holds of the roots before and after.
-/

namespace AmplitudeTree

namespace Assignment

def taken (start length : ℕ) (bits : Assignment) : Assignment :=
  fun q => if q < length then bits (start + q) else false

def dropped (start length : ℕ) (bits : Assignment) : Assignment :=
  fun q => if q < start then bits q else bits (q + length)

/-- The values of the qubits outside a range, with those of an index put in for the range. -/
def filled (start length : ℕ) (index : BasisIndex) (bits : Assignment) : Assignment :=
  fun q => if q < start then bits q
    else if q < start + length then index.testBit (q - start) else bits (q - length)

theorem dropped_of_lt {start q : ℕ} (below : q < start) (length : ℕ) (bits : Assignment) :
    dropped start length bits q = bits q :=
  if_pos below

theorem filled_of_lt {start q : ℕ} (below : q < start) (length : ℕ) (index : BasisIndex)
    (bits : Assignment) : filled start length index bits q = bits q :=
  if_pos below

theorem taken_filled (start : ℕ) {length : ℕ} (index : BasisIndex) (bits : Assignment) {q : ℕ}
    (inside : q < length) : taken start length (filled start length index bits) q = index.testBit q := by
  have above : ¬start + q < start := by omega
  have below : start + q < start + length := by omega
  rw [taken, if_pos inside, filled, if_neg above, if_pos below, Nat.add_sub_cancel_left]

theorem dropped_filled (start length : ℕ) (index : BasisIndex) (bits : Assignment) :
    dropped start length (filled start length index bits) = bits := by
  funext q
  by_cases below : q < start
  · rw [dropped_of_lt below, filled_of_lt below]
  · have outside : ¬q + length < start := by omega
    have after : ¬q + length < start + length := by omega
    rw [dropped, if_neg below, filled, if_neg outside, if_neg after, Nat.add_sub_cancel]

theorem filled_dropped {start length : ℕ} {value : BasisIndex} {bits : Assignment}
    (same : ∀ q < length, bits (start + q) = value.testBit q) :
    filled start length value (dropped start length bits) = bits := by
  funext q
  by_cases before : q < start
  · rw [filled_of_lt before, dropped_of_lt before]
  · have above := not_lt.mp before
    by_cases within : q < start + length
    · rw [filled, if_neg before, if_pos within, ← same (q - start) (by omega),
        Nat.add_sub_cancel' above]
    · have outside : ¬q - length < start := by omega
      rw [filled, if_neg before, if_neg within, dropped, if_neg outside,
        Nat.sub_add_cancel (by omega)]

end Assignment

open Assignment

namespace Unfolding

variable {canonical : Prop} {u : Unfolding} {start length : ℕ}

/-- A tree on the level after a range reads the qubits that move together without the range. -/
theorem amplitude_dropped (u : Unfolding) (start length : ℕ) (bits : Assignment) :
    u.amplitude start (dropped start length bits) = u.amplitude (start + length) bits := by
  rw [amplitude_add]
  exact amplitude_congr u fun q lower => if_neg (not_lt.mpr lower)

theorem Regular.amplitude_taken (regular : u.Regular canonical length) (start : ℕ)
    (bits : Assignment) : u.amplitude 0 (taken start length bits) = u.amplitude start bits := by
  rw [← Nat.zero_add start, amplitude_add, Nat.zero_add]
  refine regular.amplitude_congr fun q _ below => ?_
  rw [Nat.zero_add] at below
  rw [taken, if_pos below, Nat.add_comm]

end Unfolding

namespace NodeStore

/-- A stored node with a property; a node without amplitude is the zero node. -/
structure Holds (s : NodeStore ℝ) (id : NodeId) (p : Unfolding → Prop) : Prop where
  stored : id < s.size
  clean : s.isZero id = true → id = 0
  holds : p (s.unfold id)

theorem Yields.result {s : NodeStore ℝ} {result : NodeId × NodeStore ℝ} {p : Unfolding → Prop}
    (yields : s.Yields result p) : result.2.Holds result.1 p :=
  ⟨yields.stored, yields.clean, yields.holds⟩

theorem Holds.grow {s t : NodeStore ℝ} {id : NodeId} {p : Unfolding → Prop} (holds : s.Holds id p)
    (growth : s.Extends t) : t.Holds id p where
  stored := holds.stored.trans_le growth.size_le
  clean := by
    rw [growth.isZero_eq holds.stored]
    exact holds.clean
  holds := by
    rw [growth.unfold_eq holds.stored]
    exact holds.holds

theorem Holds.yields {s : NodeStore ℝ} {id : NodeId} {p : Unfolding → Prop} (holds : s.Holds id p)
    (exact : s.Exact) : s.Yields (id, s) p :=
  ⟨.refl s, exact, holds.stored, holds.clean, holds.holds⟩

/-! ## Descent -/

section Descent

variable {R : Type} [Scalar R] {s t : NodeStore R} {id child other : NodeId} {steps : ℕ}

def IsBranch (s : NodeStore R) (id child : NodeId) : Prop :=
  ∃ low high, (s.get id).branches = some (low, high) ∧ (child = low ∨ child = high) ∧
    s.isZero child = false

/-- The second node lies a number of levels below the first. -/
def Descends (s : NodeStore R) : ℕ → NodeId → NodeId → Prop
  | 0, id, other => other = id
  | steps + 1, id, other => ∃ child, s.IsBranch id child ∧ s.Descends steps child other

theorem Descends.step (descends : s.Descends steps id other) (branch : s.IsBranch other child) :
    s.Descends (steps + 1) id child := by
  induction steps generalizing id with
  | zero =>
      obtain rfl : other = id := descends
      exact ⟨child, branch, rfl⟩
  | succ steps ih =>
      obtain ⟨first, isBranch, rest⟩ := descends
      exact ⟨first, isBranch, ih rest⟩

theorem mem_nextLevel {level : List NodeId} :
    child ∈ Tree.nextLevel s level ↔ ∃ id ∈ level, s.IsBranch id child := by
  unfold Tree.nextLevel
  rw [List.mem_eraseDups, List.mem_flatMap]
  refine exists_congr fun id => and_congr_right fun _ => ?_
  unfold IsBranch
  cases branches : (s.get id).branches with
  | none => simp
  | some pair =>
      obtain ⟨low, high⟩ := pair
      constructor
      · intro found
        obtain ⟨member, nonzero⟩ := List.mem_filter.mp found
        exact ⟨low, high, rfl, by simpa using member, by simpa using nonzero⟩
      · rintro ⟨_, _, ⟨⟩, which, nonzero⟩
        exact List.mem_filter.mpr ⟨by simpa using which, by simp [nonzero]⟩

theorem mem_levelBelow {level : List NodeId} :
    other ∈ Tree.levelBelow s steps level ↔ ∃ id ∈ level, s.Descends steps id other := by
  induction steps generalizing level with
  | zero => simp [Tree.levelBelow, Descends]
  | succ steps ih =>
      rw [Tree.levelBelow, ih]
      constructor
      · rintro ⟨child, found, rest⟩
        obtain ⟨id, member, branch⟩ := mem_nextLevel.mp found
        exact ⟨id, member, child, branch, rest⟩
      · rintro ⟨id, member, child, branch, rest⟩
        exact ⟨child, mem_nextLevel.mpr ⟨id, member, branch⟩, rest⟩

theorem mem_hosts {t : Tree R} {depth : ℕ} :
    id ∈ t.hosts depth ↔ t.store.Descends depth t.root id ∧ t.store.isZero id = false := by
  simp [Tree.hosts, mem_levelBelow]

theorem Extends.descends_iff (growth : s.Extends t) (ordered : s.Ordered) (stored : id < s.size) :
    t.Descends steps id other ↔ s.Descends steps id other := by
  induction steps generalizing id with
  | zero => rfl
  | succ steps ih =>
      refine exists_congr fun child => ?_
      have branches : t.IsBranch id child ↔ s.IsBranch id child := by
        unfold IsBranch
        rw [growth.get_eq id stored]
        refine exists_congr fun low => exists_congr fun high => and_congr_right fun found =>
          and_congr_right fun which => ?_
        obtain ⟨lowLt, highLt⟩ := ordered.branches_lt found
        rcases which with rfl | rfl
        · rw [growth.isZero_eq (lowLt.trans stored)]
        · rw [growth.isZero_eq (highLt.trans stored)]
      rw [branches]
      refine and_congr_right fun branch => ih ?_
      obtain ⟨low, high, found, which, _⟩ := branch
      obtain ⟨lowLt, highLt⟩ := ordered.branches_lt found
      rcases which with rfl | rfl
      · exact lowLt.trans stored
      · exact highLt.trans stored

end Descent

variable {s : NodeStore ℝ} {canonical : Prop} {width depth steps : ℕ} {id child other : NodeId}

theorem OnLevel.of_branch (onLevel : s.OnLevel canonical width depth id) (ordered : s.Ordered)
    (nonzero : s.isZero id = false) (branch : s.IsBranch id child) :
    s.OnLevel canonical width (depth + 1) child ∧ s.isZero child = false := by
  obtain ⟨low, high, found, which, childNonzero⟩ := branch
  obtain ⟨_, lowLevel, highLevel⟩ := onLevel.branches ordered nonzero found
  rcases which with rfl | rfl
  · exact ⟨lowLevel, childNonzero⟩
  · exact ⟨highLevel, childNonzero⟩

theorem OnLevel.descends (onLevel : s.OnLevel canonical width depth id) (ordered : s.Ordered)
    (nonzero : s.isZero id = false) (descends : s.Descends steps id other) :
    s.OnLevel canonical width (depth + steps) other ∧ s.isZero other = false := by
  induction steps generalizing id depth with
  | zero =>
      obtain rfl : other = id := descends
      exact ⟨onLevel, nonzero⟩
  | succ steps ih =>
      obtain ⟨child, branch, rest⟩ := descends
      obtain ⟨childLevel, childNonzero⟩ := onLevel.of_branch ordered nonzero branch
      rw [← Nat.add_assoc, Nat.add_right_comm]
      exact ih childLevel childNonzero rest

/-- Below a node that is not zero there are such nodes on every level. -/
theorem OnLevel.exists_descends (onLevel : s.OnLevel canonical width depth id) (ordered : s.Ordered)
    (nonzero : s.isZero id = false) (le : depth + steps ≤ width) :
    ∃ other, s.Descends steps id other := by
  induction steps generalizing id depth with
  | zero => exact ⟨id, rfl⟩
  | succ steps ih =>
      cases branches : (s.get id).branches with
      | none =>
          have bottom := onLevel.eq_width nonzero branches
          omega
      | some pair =>
          obtain ⟨low, high⟩ := pair
          obtain ⟨_, some, _⟩ := onLevel.fork ordered nonzero branches
          have branch : ∃ child, s.IsBranch id child := by
            rcases some with lowSome | highSome
            · exact ⟨low, low, high, branches, .inl rfl, unfold_ne_zero.mp lowSome⟩
            · exact ⟨high, low, high, branches, .inr rfl, unfold_ne_zero.mp highSome⟩
          obtain ⟨child, branch⟩ := branch
          obtain ⟨childLevel, childNonzero⟩ := onLevel.of_branch ordered nonzero branch
          obtain ⟨other, rest⟩ := ih childLevel childNonzero (by omega)
          exact ⟨other, child, branch, rest⟩

/-- On a path to a node further down, the amplitudes are those of that node times a factor. -/
theorem OnLevel.amplitude_descends (onLevel : s.OnLevel canonical width depth id)
    (ordered : s.Ordered) (nonzero : s.isZero id = false) (descends : s.Descends steps id other) :
    ∃ factor : ℂ, factor ≠ 0 ∧ ∃ path : Assignment, ∀ bits,
      (∀ q, depth ≤ q → q < depth + steps → bits q = path q) →
        (s.unfold id).amplitude depth bits = factor * (s.unfold other).amplitude (depth + steps) bits := by
  induction steps generalizing id depth with
  | zero =>
      obtain rfl : other = id := descends
      exact ⟨1, one_ne_zero, fun _ => false, fun bits _ => (one_mul _).symm⟩
  | succ steps ih =>
      obtain ⟨child, branch, rest⟩ := descends
      obtain ⟨childLevel, childNonzero⟩ := onLevel.of_branch ordered nonzero branch
      obtain ⟨factor, scaled, path, along⟩ := ih childLevel childNonzero rest
      obtain ⟨low, high, found, which, _⟩ := branch
      have shift : depth + 1 + steps = depth + (steps + 1) := by omega
      rw [shift] at along
      have value : ∃ value : Bool, child = if value then high else low := by
        rcases which with rfl | rfl
        · exact ⟨false, rfl⟩
        · exact ⟨true, rfl⟩
      obtain ⟨value, taken⟩ := value
      refine ⟨_, mul_ne_zero (onLevel.scale_ne_zero nonzero) scaled,
        Function.update path depth value, fun bits same => ?_⟩
      have here := same depth (le_refl _) (by omega)
      rw [Function.update_self] at here
      have below := along bits fun q lower upper => by
        rw [same q (by omega) upper, Function.update_of_ne (by omega)]
      rw [ordered.amplitude_of_branches nonzero found, here, mul_assoc, ← below, taken]
      cases value <;> rfl

end NodeStore

namespace Tree

/-- A path through nodes with amplitude leads from the root to a node on a level. -/
def Reaches {R : Type} [Scalar R] (t : Tree R) (depth : ℕ) (id : NodeId) : Prop :=
  t.store.isZero t.root = false ∧ t.store.Descends depth t.root id

variable {t : Tree ℝ} {canonical : Prop} {level : ℕ} {id : NodeId}

/-- Hosts lie on their level; only below a root without amplitude the tree may be deeper. -/
theorem onLevel_of_mem_hosts (ordered : t.store.Ordered)
    (onLevel : t.store.OnLevel canonical t.width 0 t.root)
    (below : ∀ {low high}, (t.store.get t.root).branches = some (low, high) →
      ∃ width, t.width ≤ width ∧ t.store.OnLevel canonical width 1 low ∧
        t.store.OnLevel canonical width 1 high) (level : ℕ) :
    ∃ width, t.width ≤ width ∧ (t.store.isZero t.root = false → width = t.width) ∧
      ∀ id ∈ t.hosts level, t.store.OnLevel canonical width level id ∧ t.store.isZero id = false := by
  cases empty : t.store.isZero t.root with
  | false =>
      refine ⟨t.width, le_refl _, fun _ => rfl, fun id member => ?_⟩
      obtain ⟨descends, _⟩ := NodeStore.mem_hosts.mp member
      have reached := onLevel.descends ordered empty descends
      rwa [Nat.zero_add] at reached
  | true =>
      cases level with
      | zero =>
          refine ⟨t.width, le_refl _, fun _ => rfl, fun id member => ?_⟩
          obtain ⟨descends, nonzero⟩ := NodeStore.mem_hosts.mp member
          obtain rfl : id = t.root := descends
          rw [empty] at nonzero
          cases nonzero
      | succ level =>
          cases branches : (t.store.get t.root).branches with
          | none =>
              refine ⟨t.width, le_refl _, fun _ => rfl, fun id member => ?_⟩
              obtain ⟨⟨child, ⟨low, high, found, _⟩, _⟩, _⟩ := NodeStore.mem_hosts.mp member
              rw [branches] at found
              cases found
          | some pair =>
              obtain ⟨low, high⟩ := pair
              obtain ⟨width, le, lowLevel, highLevel⟩ := below branches
              refine ⟨width, le, Bool.noConfusion, fun id member => ?_⟩
              obtain ⟨⟨child, ⟨low', high', found, which, childNonzero⟩, rest⟩, _⟩ :=
                NodeStore.mem_hosts.mp member
              obtain ⟨rfl, rfl⟩ := Prod.mk.inj (Option.some.inj (branches.symm.trans found))
              have childLevel : t.store.OnLevel canonical width 1 child := by
                rcases which with rfl | rfl
                · exact lowLevel
                · exact highLevel
              have reached := childLevel.descends ordered childNonzero rest
              rwa [Nat.add_comm] at reached

theorem Sound.hosts (sound : t.Sound canonical) (level : ℕ) :
    ∃ width, t.width ≤ width ∧ (t.store.isZero t.root = false → width = t.width) ∧
      ∀ id ∈ t.hosts level, t.store.OnLevel canonical width level id ∧ t.store.isZero id = false :=
  onLevel_of_mem_hosts sound.exact.toOrdered sound.onLevel sound.below level

/-- A tree with amplitude has hosts on every level. -/
theorem exists_mem_hosts (ordered : t.store.Ordered)
    (onLevel : t.store.OnLevel canonical t.width 0 t.root)
    (nonzero : t.store.isZero t.root = false) (le : level ≤ t.width) :
    ∃ host, host ∈ t.hosts level := by
  obtain ⟨host, descends⟩ := onLevel.exists_descends ordered nonzero
    (show 0 + level ≤ t.width by omega)
  exact ⟨host, NodeStore.mem_hosts.mpr ⟨descends, (onLevel.descends ordered nonzero descends).2⟩⟩

theorem Sound.exists_host (sound : t.Sound canonical) (nonzero : t.store.isZero t.root = false)
    (le : level ≤ t.width) : ∃ host, host ∈ t.hosts level :=
  exists_mem_hosts sound.exact.toOrdered sound.onLevel nonzero le

/-- A tree without amplitude may have fewer qubits. -/
theorem Sound.shrink (sound : t.Sound canonical) (empty : t.store.isZero t.root = true) {width : ℕ}
    (le : width ≤ t.width) : Sound canonical { t with width := width } where
  exact := sound.exact
  stored := sound.stored
  regular := by
    rw [show Tree.unfold { t with width := width } = .zero from isZero_iff_unfold_eq.mp empty]
    exact Unfolding.regular_zero
  below branches := by
    obtain ⟨deeper, wide, levels⟩ := sound.below branches
    exact ⟨deeper, le.trans wide, levels⟩

/-! ## Replacing -/

/-- Each step extends the store and keeps it valid, so what holds of a replacement stays true. -/
theorem foldl_exchange {R : Type} [Scalar R] {base s : NodeStore R} {valid : NodeStore R → Prop}
    (holds : NodeId → NodeStore R → NodeId → Prop)
    (grow : ∀ {id t t' copy}, holds id t copy → t.Extends t' → holds id t' copy)
    (step : NodeId → NodeStore R → NodeId × NodeStore R) (hosts : List NodeId) (kept : NodeId → Prop)
    (steps : ∀ host ∈ hosts, ∀ t, base.Extends t → valid t → t.Extends (step host t).2 ∧
      valid (step host t).2 ∧ holds host (step host t).2 (step host t).1)
    (growth : base.Extends s) (before : valid s) (swap : Std.HashMap NodeId NodeId)
    (known : ∀ id, kept id → holds id s (swap.getD id id)) :
    let result := hosts.foldl
      (fun (swap, s) host =>
        let (copy, s) := step host s
        (swap.insert host copy, s)) (swap, s)
    base.Extends result.2 ∧ valid result.2 ∧
      ∀ id, id ∈ hosts ∨ kept id → holds id result.2 (result.1.getD id id) := by
  induction hosts generalizing swap s kept with
  | nil => exact ⟨growth, before, fun id found => known id (found.resolve_left List.not_mem_nil)⟩
  | cons host hosts ih =>
      obtain ⟨extended, after, replaces⟩ := steps host List.mem_cons_self s growth before
      obtain ⟨grown, last, replaced⟩ := ih (fun id => id = host ∨ kept id)
        (fun other member => steps other (List.mem_cons_of_mem _ member))
        (growth.trans extended) after (swap.insert host (step host s).1)
        fun id found => by
          rw [Std.HashMap.getD_insert]
          split
          · next same =>
              rw [← eq_of_beq same]
              exact replaces
          · next differs =>
              have other : id ≠ host := fun same => differs (beq_iff_eq.mpr same.symm)
              exact grow (known id (found.resolve_left other)) extended
      refine ⟨grown, last, fun id found => replaced id ?_⟩
      rw [List.mem_cons, or_assoc] at found
      rcases found with here | later | before
      · exact .inr (.inl here)
      · exact .inl later
      · exact .inr (.inr before)

theorem foldl_swap {base s : NodeStore ℝ} (step : NodeId → NodeStore ℝ → NodeId × NodeStore ℝ)
    (holds : NodeId → Unfolding → Prop) (hosts : List NodeId)
    (steps : ∀ host ∈ hosts, ∀ t, base.Extends t → t.Exact → t.Yields (step host t) (holds host))
    (growth : base.Extends s) (exact : s.Exact) :
    let result := hosts.foldl
      (fun (swap, s) host =>
        let (copy, s) := step host s
        (swap.insert host copy, s)) ((∅ : Std.HashMap NodeId NodeId), s)
    base.Extends result.2 ∧ result.2.Exact ∧
      ∀ host ∈ hosts, result.2.Holds (result.1.getD host host) (holds host) := by
  obtain ⟨grown, last, replaced⟩ := foldl_exchange
    (fun id t copy => t.Holds copy (holds id)) NodeStore.Holds.grow step hosts (fun _ => False)
    (fun host member t extended valid =>
      have yields := steps host member t extended valid
      ⟨yields.growth, yields.exact, yields.result⟩)
    growth exact ∅ (fun _ impossible => impossible.elim)
  exact ⟨grown, last, fun host member => replaced host (.inl member)⟩

/-- Two readings of an assignment that agree above a level, with a factor for each. -/
structure Rereading (level : ℕ) where
  before : Assignment → Assignment
  after : Assignment → Assignment
  beforeFactor : Assignment → ℂ
  afterFactor : Assignment → ℂ
  before_eq : ∀ bits q, q < level → before bits q = bits q
  after_eq : ∀ bits q, q < level → after bits q = bits q

/-! The readings that are used leave the qubits before the level alone. -/

theorem Rereading.plain_eq (level : ℕ) (bits : Assignment) (q : ℕ) (_ : q < level) :
    bits q = bits q := rfl

theorem Rereading.dropped_eq (start length : ℕ) (bits : Assignment) (q : ℕ) (below : q < start) :
    Assignment.dropped start length bits q = bits q :=
  Assignment.dropped_of_lt below length bits

theorem Rereading.filled_eq (start length : ℕ) (index : BasisIndex) (bits : Assignment) (q : ℕ)
    (below : q < start) : Assignment.filled start length index bits q = bits q :=
  Assignment.filled_of_lt below length index bits

def Rereading.Matches (r : Rereading level) (depth : ℕ) (u v : Unfolding) : Prop :=
  ∀ bits, r.beforeFactor bits * u.amplitude depth (r.before bits) =
    r.afterFactor bits * v.amplitude depth (r.after bits)

theorem Rereading.Matches.zero (r : Rereading level) (depth : ℕ) :
    r.Matches depth .zero .zero := fun bits => by
  rw [Unfolding.amplitude_zero, mul_zero, Unfolding.amplitude_zero, mul_zero]

/-- On the level of the hosts nodes are exchanged, and nodes above it are joined anew. -/
theorem replaceVisit_folds {R : Type} [Scalar R] (s : NodeStore R) (level : ℕ)
    (swap : Std.HashMap NodeId NodeId) :
    s.FoldsTo level (replaceVisit s level swap) (fun id t => (swap.getD id id, t))
      (fun id t => (id, t)) fun _ id _ _ low high t => t.join (s.get id).scale low high where
  bottom_eq id := by rw [replaceVisit, if_pos (beq_self_eq_true level)]
  leaf_eq elsewhere leaf := by rw [replaceVisit, if_neg (mt beq_iff_eq.mp elsewhere), leaf]
  fork_eq elsewhere branches := by rw [replaceVisit, if_neg (mt beq_iff_eq.mp elsewhere), branches]

/-- The walk that replaces hosts carries the agreement of the hosts up to the root. -/
theorem replace_appends {s : NodeStore ℝ} (exact : s.Exact) (r : Rereading level)
    {swap : Std.HashMap NodeId NodeId} {root : NodeId} {width width' : ℕ} (le : level ≤ width)
    (le' : level ≤ width')
    (replaced : ∀ id, s.Descends level root id → s.isZero id = false →
      s.Holds (swap.getD id id) fun v =>
        v.Regular canonical (width' - level) ∧ r.Matches level (s.unfold id) v) :
    s.Appends s (replaceVisit s level swap)
      (fun depth id => s.OnLevel canonical width depth id ∧ depth ≤ level ∧
        (s.isZero id = false → s.Descends depth root id))
      fun depth id v => v.Regular canonical (width' - depth) ∧ r.Matches depth (s.unfold id) v where
  level_unique met again := met.1.unique again.1
  zero met empty := by
    rw [NodeStore.unfold_of_isZero empty]
    exact ⟨Unfolding.regular_zero, .zero r _⟩
  answer {depth id result t} met nonzero visited growth valid := by
    obtain ⟨onLevel, above, reached⟩ := met
    obtain ⟨rfl, rfl⟩ | ⟨elsewhere, leaf, rfl⟩ :=
      (replaceVisit_folds s level swap).eq_answer visited
    · exact ((replaced id (reached nonzero) nonzero).grow growth).yields valid
    · have bottom := onLevel.eq_width nonzero leaf
      omega
  descend {depth id given given' combine} met nonzero visited := by
    obtain ⟨onLevel, above, reached⟩ := met
    obtain ⟨elsewhere, low, high, branches, rfl, rfl, rfl⟩ :=
      (replaceVisit_folds s level swap).eq_descend visited
    have above := lt_of_le_of_ne above elsewhere
    have levels : width' - depth = width' - (depth + 1) + 1 := by omega
    obtain ⟨_, lowLevel, highLevel⟩ := onLevel.branches exact.toOrdered nonzero branches
    refine ⟨_, exact.children_eq branches,
      fun _ => ⟨lowLevel, above, fun some =>
        (reached nonzero).step ⟨low, high, branches, .inl rfl, some⟩⟩,
      fun _ => ⟨highLevel, above, fun some =>
        (reached nonzero).step ⟨low, high, branches, .inr rfl, some⟩⟩, ?_⟩
    intro t newLow newHigh _ valid lowMatches highMatches
    obtain ⟨_, lowRegular, lowEq⟩ := lowMatches
    obtain ⟨highStored, highRegular, highEq⟩ := highMatches
    refine (valid.join _ _ highStored).mono fun v result => ?_
    rw [result, levels]
    refine ⟨lowRegular.join highRegular _, fun bits => ?_⟩
    rw [exact.amplitude_of_branches nonzero branches, lowRegular.amplitude_join highRegular,
      r.before_eq bits depth above, r.after_eq bits depth above]
    have lowEq := lowEq bits
    have highEq := highEq bits
    cases bits depth with
    | false =>
        rw [if_neg Bool.false_ne_true, if_neg Bool.false_ne_true]
        linear_combination (s.get id).scale.toComplex * lowEq
    | true =>
        rw [if_pos rfl, if_pos rfl]
        linear_combination (s.get id).scale.toComplex * highEq

/-- The state before and after is related as the hosts and their replacements are. -/
theorem Sound.replaceHosts (sound : t.Sound canonical) (nonzero : t.store.isZero t.root = false)
    (r : Rereading level) {s : NodeStore ℝ} (growth : t.store.Extends s) (exact : s.Exact)
    {swap : Std.HashMap NodeId NodeId} {width : ℕ} (le : level ≤ t.width) (le' : level ≤ width)
    (replaced : ∀ host ∈ t.hosts level, s.Holds (swap.getD host host) fun v =>
      v.Regular canonical (width - level) ∧ r.Matches level (t.store.unfold host) v) :
    s.Yields (Tree.replaceHosts { t with store := s } level swap) fun v =>
      v.Regular canonical width ∧ r.Matches 0 t.unfold v := by
  have ordered := sound.exact.toOrdered
  have rootUnfold : s.unfold t.root = t.unfold := growth.unfold_eq sound.stored
  rw [← rootUnfold]
  refine (replace_appends exact r le le'
    fun id descends some => ?_).walkFrom
    ⟨⟨Nat.zero_le _, rootUnfold ▸ sound.regular⟩, Nat.zero_le _, fun _ => rfl⟩ (.refl s) exact
  have descends := (growth.descends_iff ordered sound.stored).mp descends
  obtain ⟨onLevel, hostNonzero⟩ := sound.onLevel.descends ordered nonzero descends
  rw [growth.unfold_eq (sound.exact.lt_size hostNonzero)]
  exact replaced id (NodeStore.mem_hosts.mpr ⟨descends, hostNonzero⟩)

theorem replaceHosts_of_isZero (empty : t.store.isZero t.root = true)
    (swap : Std.HashMap NodeId NodeId) : t.replaceHosts level swap = (0, t.store) := by
  unfold Tree.replaceHosts NodeStore.walkFrom
  rw [NodeStore.walk, if_pos empty]
  rfl

end Tree

end AmplitudeTree
