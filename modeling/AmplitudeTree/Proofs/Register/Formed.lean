import AmplitudeTree.Proofs.PendingGates.Split
import AmplitudeTree.Proofs.Register.Gates
import AmplitudeTree.Proofs.Register.Resize
import AmplitudeTree.Proofs.Register.Width
import AmplitudeTree.Proofs.Tree.Accumulation
import AmplitudeTree.Proofs.Tree.FormedResize

/-!
# The stored nodes of registers

Registers that share one tolerance below one half stay well-formed, whatever actions they go through
and whether these return or fail.  So the branches of a node are stored before it, a path through
nodes with amplitude ends on the level after the last qubit and not before, and every qubit has a
slot for the gates that wait on it.  A register that takes in one with another tolerance may lose
this.
-/

namespace AmplitudeTree

namespace NodeStore

theorem lt_size_of_branches {R : Type} [Scalar R] {s : NodeStore R} {id low high : NodeId}
    (found : (s.get id).branches = some (low, high)) : id < s.size := by
  by_contra outside
  rw [get, Array.getElem?_eq_none (Nat.le_of_not_lt outside)] at found
  cases found

/-- Copying a node with one leaf as both its branches appends the leaf and the node. -/
theorem copyFrom_twins (s : NodeStore ℝ) {threshold : ℝ} {scale leaf : Amplitude ℝ}
    (top : scale.negligible threshold = false)
    (kept : leaf.negligible threshold = false) :
    ∃ finished, s.copyFrom (twins threshold scale leaf) 2 = (s.size + 1,
      ⟨((s.push (.leaf leaf)).2.push ⟨scale, some (s.size, s.size)⟩).2, finished⟩) := by
  have leafNonzero : (twins threshold scale leaf).isZero 1 = false := kept
  have topNonzero : (twins threshold scale leaf).isZero 2 = false := top
  have folds := (twins threshold scale leaf).copyVisit_folds
  let finished : Std.HashMap NodeId NodeId := (∅ : Std.HashMap NodeId NodeId).insert 1 s.size
  have first : (twins threshold scale leaf).walk 0 (twins threshold scale leaf).copyVisit 1 1
      (.start s) = (s.size, ⟨(s.push (.leaf leaf)).2, finished⟩) :=
    walk_of_answer leafNonzero (finished_start s 1) (@folds.leaf_eq 1 rfl 1)
  have second : (twins threshold scale leaf).walk 0 (twins threshold scale leaf).copyVisit 1 1
      ⟨(s.push (.leaf leaf)).2, finished⟩ = (s.size, ⟨(s.push (.leaf leaf)).2, finished⟩) :=
    walk_of_finished leafNonzero Std.HashMap.getElem?_insert_self
  refine ⟨finished.insert 2 (s.size + 1), ?_⟩
  refine ((ordered_twins _ _ _).walk_of_descend topNonzero (finished_start s 2) rfl
    (folds.fork_eq rfl 0)).trans ?_
  rw [Nat.zero_add, first, second, fst_push, size_push]
  rfl

end NodeStore

namespace Tree

open NodeStore

variable {t : Tree ℝ} {threshold : ℝ} {depth : ℕ} {id : NodeId}

theorem Formed.reached (formed : t.Formed threshold) (reaches : t.Reaches depth id) :
    t.store.OnLevel False t.width depth id ∧ t.store.isZero id = false := by
  have onLevel := formed.onLevel.descends formed.tolerant.toOrdered reaches.1 reaches.2
  rwa [Nat.zero_add] at onLevel

theorem Formed.branches (formed : t.Formed threshold) (reaches : t.Reaches depth id) :
    t.store.Spans (t.width - depth) (t.store.get id).branches :=
  have ⟨onLevel, nonzero⟩ := formed.reached reaches
  formed.tolerant.spans_of_onLevel onLevel nonzero

/-- Two leaves that count as zero for the host alone leave a node over two zero branches. -/
theorem insert_lost_leaves {threshold' : ℝ} {scale leaf : Amplitude ℝ}
    (one : (1 : Amplitude ℝ).negligible threshold = false)
    (top : scale.negligible threshold = false) (top' : scale.negligible threshold' = false)
    (lost : leaf.negligible threshold = true) (kept : leaf.negligible threshold' = false) :
    (basis 1 0 1 threshold).insert (ofStore (twins threshold' scale leaf) 2 1) 0 =
      ⟨⟨#[.leaf 0, .leaf 1, ⟨1, some (1, 0)⟩, .leaf leaf, ⟨scale, some (3, 3)⟩,
        ⟨1 * scale, some (0, 0)⟩], threshold⟩, 5, 2, 3⟩ := by
  obtain ⟨finished, copied⟩ := copyFrom_twins (basis 1 0 1 threshold).store top' kept
  have empty : (((basis 1 0 1 threshold).store.push (.leaf leaf)).2.push
      ⟨scale, some (3, 3)⟩).2.isZero 3 = true := lost
  exact @insert_front _ (ofStore (twins threshold' scale leaf) 2 1) _ _ _ _ _ copied top one rfl _ _
    (graft_of_isZero empty empty 1 _ _) one

end Tree

namespace Register

open NodeStore AmplitudeTree.Action

variable {reg : Register ℝ} {threshold : ℝ} {fits : Register ℝ → ℕ → Prop}

/-- A register over a well-formed tree with admitted settings and a slot for every qubit. -/
structure Formed (threshold : ℝ) (reg : Register ℝ) : Prop where
  tree : reg.tree.Formed threshold
  slots : reg.pending.width = reg.width
  separability : reg.config.separability = threshold
  admitted : reg.config.validate = .ok ()

theorem Formed.withTree (formed : reg.Formed threshold) {tree : Tree ℝ}
    (treeFormed : tree.Formed threshold) (width : tree.width = reg.width) :
    Formed threshold { reg with tree := tree } where
  tree := treeFormed
  slots := formed.slots.trans width.symm
  separability := formed.separability
  admitted := formed.admitted

theorem Formed.nonneg (formed : reg.Formed threshold) : 0 ≤ threshold :=
  formed.separability ▸ (validate_eq_ok.mp formed.admitted).1.1

theorem Formed.threshold_eq (formed : reg.Formed threshold) : reg.threshold = threshold :=
  formed.separability

/-- No change to a register with a tolerance below one half makes it malformed. -/
theorem stable_formed (small : threshold < 1 / 2) :
    Stable (fun config => config.separability = threshold) fits (Formed threshold) where
  create {width index config entropy reg} same made := by
    obtain ⟨admitted, -, generator, rfl⟩ := eq_of_create made
    obtain rfl : config.separability = threshold := same
    exact ⟨Tree.formed_basis (validate_eq_ok.mp admitted).1.1 small width index 1,
      List.length_replicate, rfl, admitted⟩
  generator _ formed := ⟨formed.tree, formed.slots, formed.separability, formed.admitted⟩
  factory _ formed := ⟨formed.tree, formed.slots, formed.separability, formed.admitted⟩
  append {reg} gate qubit formed := { formed with
    slots := (PendingGates.width_append _ qubit gate _).trans formed.slots }
  erase {reg} qubit formed := { formed with
    slots := (PendingGates.width_erase _ qubit).trans formed.slots }
  clear {reg} formed := { formed with slots := (List.length_map _).trans formed.slots }
  apply gate controls target formed :=
    formed.withTree (formed.tree.apply gate controls target) rfl
  reduce formed := formed.withTree formed.tree.reduce rfl
  basis {reg} index phase formed := by
    rw [formed.threshold_eq]
    exact formed.withTree (Tree.formed_basis formed.nonneg small reg.width index phase) rfl
  treeOf {reg} amplitudes formed := by
    rw [treeOf, formed.threshold_eq]
    exact formed.withTree (Tree.formed_ofAmplitudes formed.nonneg small reg.width _) rfl
  normalize {reg} formed := formed.withTree
    (formed.tree.normalize (validate_eq_ok.mp formed.admitted).2.1.2) (Tree.width_normalize _ _)
  collapse qubit value formed :=
    formed.withTree (formed.tree.collapse qubit value) (Tree.width_collapse _ _ _)
  empty {reg width} _ formed := by
    rw [formed.threshold_eq]
    exact ⟨Tree.formed_basis formed.nonneg small width 0 1, List.length_replicate,
      formed.separability, formed.admitted⟩
  insert {reg other start} within _ formed otherFormed := by
    obtain ⟨tree, width⟩ := formed.tree.insert otherFormed.tree within
    refine ⟨tree, ?_, formed.separability, formed.admitted⟩
    rw [PendingGates.width_insert (within.trans_eq formed.slots.symm), formed.slots,
      otherFormed.slots]
    exact width.symm
  allocate {reg start length} within _ formed := by
    rw [formed.threshold_eq]
    obtain ⟨tree, width⟩ :=
      formed.tree.insert (Tree.formed_basis formed.nonneg small length 0 1) within
    refine ⟨tree, ?_, formed.separability, formed.admitted⟩
    rw [PendingGates.width_insert (within.trans_eq formed.slots.symm), formed.slots]
    exact (congrArg (reg.width + ·) List.length_replicate).trans width.symm
  entangled range inside none formed := by
    refine formed.withTree (formed.tree.split inside).1 ?_
    rw [Tree.width_split, none]
    rfl
  rest {reg} range inside some formed := by
    refine ⟨(formed.tree.split inside).1, ?_, formed.separability, formed.admitted⟩
    have width := Tree.width_split reg.tree range.start range.length
    rw [if_pos some] at width
    rw [(PendingGates.width_split (inside.trans_eq formed.slots.symm)).2, formed.slots]
    exact width.symm
  part {reg other} range {part} inside parted formed otherFormed := by
    refine ⟨(formed.tree.split inside).2 part parted, ?_, otherFormed.separability,
      otherFormed.admitted⟩
    rw [(PendingGates.width_split (inside.trans_eq formed.slots.symm)).1]
    exact (Tree.width_part parted).symm
  impossible range value inside failed formed := by
    refine formed.withTree (formed.tree.restrict inside value) ?_
    rw [Tree.width_restrict, failed]
    rfl
  restrict {reg} range value inside kept formed := by
    refine ⟨formed.tree.restrict inside value, ?_, formed.separability, formed.admitted⟩
    have width := Tree.width_restrict reg.tree range.start range.length value
    rw [if_pos kept] at width
    rw [(PendingGates.width_split (inside.trans_eq formed.slots.symm)).2, formed.slots]
    exact width.symm

/-! ## What walks rely on -/

/-- What a walk over the nodes of a register relies on. -/
structure Intact (reg : Register ℝ) : Prop where
  /-- Branches are stored before their node. -/
  branches_lt : ∀ {id low high}, (reg.tree.store.get id).branches = some (low, high) →
    low < id ∧ high < id ∧ id < reg.tree.store.size
  root_lt : reg.tree.root < reg.tree.store.size
  /-- A node that is reached is stored, and its qubit is one of the register or the level after. -/
  reached : ∀ {depth id}, reg.tree.Reaches depth id → id < reg.tree.store.size ∧ depth ≤ reg.width
  /-- A node that is reached and decides a qubit has a branch with amplitude. -/
  inner : ∀ {depth id}, reg.tree.Reaches depth id → depth < reg.width →
    ∃ low high, (reg.tree.store.get id).branches = some (low, high) ∧
      (reg.tree.store.isZero low = false ∨ reg.tree.store.isZero high = false)
  /-- A node that is reached after the last qubit is a leaf. -/
  last : ∀ {id}, reg.tree.Reaches reg.width id → (reg.tree.store.get id).branches = none
  /-- The hosts of a range have such branches as well, also below a root without amplitude. -/
  hosts : ∀ {depth id}, id ∈ reg.tree.hosts depth → depth < reg.width →
    ∃ low high, (reg.tree.store.get id).branches = some (low, high) ∧
      (reg.tree.store.isZero low = false ∨ reg.tree.store.isZero high = false)
  slots : reg.pending.width = reg.width

theorem Formed.intact (formed : reg.Formed threshold) : reg.Intact where
  branches_lt found :=
    have ⟨lowLt, highLt⟩ := formed.tree.tolerant.branches_lt found
    ⟨lowLt, highLt, lt_size_of_branches found⟩
  root_lt := formed.tree.rooted.stored
  reached reaches :=
    have ⟨onLevel, nonzero⟩ := formed.tree.reached reaches
    ⟨formed.tree.tolerant.lt_size nonzero, onLevel.le⟩
  inner reaches below :=
    (formed.tree.branches reaches).exists_branches (Nat.sub_pos_of_lt below)
  last reaches := by
    have spans := formed.tree.branches reaches
    rw [show reg.tree.width = reg.width from rfl, Nat.sub_self] at spans
    exact spans.eq_none
  hosts {depth id} member below := by
    obtain ⟨width, wide, -, onLevels⟩ := formed.tree.hosts depth
    obtain ⟨onLevel, nonzero⟩ := onLevels id member
    exact (formed.tree.tolerant.spans_of_onLevel onLevel nonzero).exists_branches
      (Nat.sub_pos_of_lt (below.trans_le wide))
  slots := formed.slots

/-- Registers that share a tolerance below one half are intact after any sequence of actions,
failing ones included. -/
theorem intact_of_attainable (small : threshold < 1 / 2)
    (attainable : Attainable (fun config => config.separability = threshold) (fun _ _ => True) reg) :
    reg.Intact :=
  (attainable.holds (stable_formed small)).intact

/-- Two entangled qubits with a tolerance of one quarter, after a range was refused. -/
theorem intact_bell_pair :
    ∃ reg : Register ℝ, create 2 0 { exactConfig with separability := 1 / 4 } 0 = .ok reg ∧
      (1 / 4 : ℝ) < 1 / 2 ∧
      (dispose ⟨1, 2⟩).runOn reg = (.error (.rangeOutOfBounds ⟨1, 2⟩ 2), reg) ∧
      ((applyWhere [0] true .pauliX 1).runOn
        ((applyWhere [] true .hadamard 0).runOn ((dispose ⟨1, 2⟩).runOn reg).2).2).2.Intact := by
  have small : (1 / 4 : ℝ) < 1 / 2 := by norm_num
  have admitted : Config.validate { exactConfig with separability := 1 / 4 } = .ok () :=
    validate_withSeparability (by norm_num) (by norm_num) true
  have addressed : BasisIndex.check 0 2 = .ok () := rfl
  obtain ⟨reg, made⟩ := exists_create admitted (by decide) addressed 0
  have fresh : Attainable (fun config => config.separability = 1 / 4) (fun _ _ => True) reg :=
    .create rfl made
  have intact := intact_of_attainable small
    (.gate (.gate (.dispose fresh ⟨1, 2⟩) [] true .hadamard 0) [0] true .pauliX 1)
  obtain ⟨-, -, generator, rfl⟩ := eq_of_create made
  exact ⟨_, made, small, rfl, intact⟩

/-! ## Registers with different tolerances -/

/-- A gate that waits on the only qubit, applied to the tree and reduced. -/
theorem settleAll_of_one {reg : Register ℝ} {gate : Gate ℝ} (one : reg.width = 1)
    (waits : reg.pending.get? 0 = some gate) (reduces : reg.config.autoReduce = true) :
    reg.settleAll =
      { reg with pending := reg.pending.erase 0, tree := (reg.tree.settle gate 0).reduce } := by
  have waiting : reg.pending.any = true := by
    by_contra none
    rw [PendingGates.get?_of_not_any (Bool.not_eq_true _ ▸ none)] at waits
    cases waits
  rw [settleAll, if_pos waiting, one, List.range_one, List.foldl_cons, List.foldl_nil, settle, waits]
  dsimp only
  rw [afterChange, if_pos reduces]

/-- A gate that takes a qubit from 0 to the amplitudes 30 / 43 and (30 + 7i) / 43. -/
noncomputable def tilt : Gate ℝ := ⟨.ofReal (30 / 43), 0, ⟨30 / 43, 7 / 43⟩, 0⟩

/-- A tolerance of one quarter takes the two amplitudes for equal. -/
theorem reduce_settle_tilt : ((Tree.basis 1 0 1 (1 / 4)).settle tilt 0).reduce =
    .ofStore (twins (1 / 4) 1 (.ofReal (30 / 43))) 2 1 := by
  have scaled {a : Amplitude ℝ} (large : 1 / 4 < Complex.normSq a.toComplex) :
      a.negligible (1 / 4) = false := by rwa [Amplitude.negligible_eq_false]
  obtain ⟨ordered, thresholds, pair⟩ := Tree.oneQubit_root_of_unit
    (by norm_num : (0 : ℝ) ≤ 30 / 43) (b := ⟨30 / 43, 7 / 43⟩) (by norm_num [Amplitude.normSq])
    (by norm_num : (1 / 4 : ℝ) < 1) (scaled (a := 1) (by norm_num))
    (scaled (by norm_num [Amplitude.normSq_ofReal]))
    (scaled (by rw [Complex.normSq_apply]; norm_num))
  replace thresholds : (Tree.oneQubit (1 / 4) 1 (.ofReal (30 / 43))
    ⟨30 / 43, 7 / 43⟩).store.threshold = 1 / 4 := thresholds
  have reduced := pair.reduce_of_imaginary ordered (by norm_num) (by rw [thresholds]; norm_num)
    (by rw [thresholds]; norm_num)
  rw [thresholds] at reduced
  refine (Tree.reduce_reduceIfBloated ordered ?_).trans ?_
  · exact (by norm_num : (0 : ℝ) ≤ 1 / 4).trans_eq thresholds.symm
  · rw [Tree.reduce, reduced]
    rfl

theorem tilt_not_identity : tilt.isIdentity (1 / 4) = false := by
  have lower : (⟨30 / 43, 7 / 43⟩ : Amplitude ℝ).negligible (1 / 4) = false := by
    rw [Amplitude.negligible_eq_false, Complex.normSq_apply]
    norm_num
  rw [Gate.isIdentity, Gate.isScalar, Gate.isDiagonal,
    show tilt.bottomLeft = ⟨30 / 43, 7 / 43⟩ from rfl, lower, Bool.and_false, Bool.false_and,
    Bool.false_and]

theorem settled_tilt {fresh : Register ℝ}
    (made : create 1 0 { exactConfig with separability := 1 / 4 } 0 = .ok fresh) :
    ((applyWhere [] true tilt 0).runOn fresh).2.settleAll.tree =
      .ofStore (twins (1 / 4) 1 (.ofReal (30 / 43))) 2 1 := by
  obtain ⟨-, -, generator, rfl⟩ := eq_of_create made
  rw [runOn_applyWhere, if_pos List.isEmpty_nil, runOn_apply, if_pos (by exact Nat.one_pos)]
  have waits : ((PendingGates.empty 1).append 0 tilt (1 / 4)).get? 0 = some tilt := by
    rw [PendingGates.get?_append_self (by exact Nat.one_pos), PendingGates.get?_empty]
    exact if_neg (tilt_not_identity ▸ Bool.false_ne_true)
  exact (congrArg Register.tree (settleAll_of_one rfl waits rfl)).trans reduce_settle_tilt

/-- A root with amplitude over two empty branches. -/
theorem not_intact_of_empty_branches {reg : Register ℝ}
    (nonzero : reg.tree.store.isZero reg.tree.root = false)
    (branches : (reg.tree.store.get reg.tree.root).branches = some (0, 0)) (wide : 0 < reg.width) :
    ¬reg.Intact := by
  intro intact
  have reaches : reg.tree.Reaches 0 reg.tree.root := ⟨nonzero, rfl⟩
  obtain ⟨low, high, found, kept⟩ := intact.inner reaches wide
  rw [branches] at found
  cases found
  rw [show reg.tree.store.isZero 0 = true from rfl] at kept
  exact absurd kept (by decide)

/-- The first of two registers of one qubit takes the leaves of the other one for empty. -/
theorem compose_lost_leaves {reg other : Register ℝ} {threshold threshold' : ℝ} {leaf : Amplitude ℝ}
    (tree : reg.tree = .basis 1 0 1 threshold) (kept : reg.config.autoReduce = false)
    (otherTree : other.tree = .ofStore (twins threshold' 1 leaf) 2 1)
    (one : (1 : Amplitude ℝ).negligible threshold = false)
    (one' : (1 : Amplitude ℝ).negligible threshold' = false)
    (lost : leaf.negligible threshold = true) (stays : leaf.negligible threshold' = false) :
    ∃ left, (compose other 0).runOn reg = (.ok 0, left) ∧ ¬left.Intact := by
  have width : reg.width = 1 := congrArg Tree.width tree
  have otherWidth : other.width = 1 := congrArg Tree.width otherTree
  have whole : (1 * 1 : Amplitude ℝ) = 1 := by
    rw [← Amplitude.toComplex_inj, Amplitude.toComplex_mul, Amplitude.toComplex_one, one_mul]
  have grown := Tree.insert_lost_leaves one one one' lost stays
  have settled : (reg.inserted other.tree other.pending 0).afterChange.tree =
      (Tree.basis 1 0 1 threshold).insert (.ofStore (twins threshold' 1 leaf) 2 1) 0 := by
    have unreduced : (reg.inserted other.tree other.pending 0).config.autoReduce = false := kept
    rw [afterChange, unreduced, if_neg Bool.false_ne_true, inserted, tree, otherTree, grown]
    rfl
  rw [whole] at grown
  rw [runOn_compose, if_neg (Nat.not_lt_zero _), width, otherWidth, if_neg (by decide)]
  refine ⟨_, rfl, not_intact_of_empty_branches ?_ ?_ ?_⟩
  · rw [settled, grown]
    exact one
  · rw [settled, grown]
    rfl
  · rw [Register.width, settled, grown]
    exact Nat.two_pos

/-- The tolerances differ: two merged leaves of the second register are
negligible for the first one. -/
theorem not_intact_of_two_tolerances :
    ∃ reg fresh left : Register ℝ,
      create 1 0 { exactConfig with separability := 49 / 100, autoReduce := false } 0 = .ok reg ∧
      create 1 0 { exactConfig with separability := 1 / 4 } 0 = .ok fresh ∧
      (compose ((applyWhere [] true tilt 0).runOn fresh).2.settleAll 0).runOn reg =
        (.ok 0, left) ∧
      Attainable (fun config => config.separability < 1 / 2) (fun _ _ => True) left ∧
      ¬left.Intact := by
  have admitted : Config.validate
      { exactConfig with separability := 49 / 100, autoReduce := false } = .ok () :=
    validate_withSeparability (by norm_num) (by norm_num) false
  have admitted' : Config.validate { exactConfig with separability := 1 / 4 } = .ok () :=
    validate_withSeparability (by norm_num) (by norm_num) true
  have addressed : BasisIndex.check 0 1 = .ok () := rfl
  obtain ⟨reg, made⟩ := exists_create admitted (by decide) addressed 0
  obtain ⟨fresh, made'⟩ := exists_create admitted' (by decide) addressed 0
  have attainable : Attainable (fun config => config.separability < 1 / 2) (fun _ _ => True) reg :=
    .create (by norm_num) made
  have attainable' : Attainable (fun config => config.separability < 1 / 2) (fun _ _ => True) fresh :=
    .create (by norm_num) made'
  have composed := attainable.compose (attainable'.gate [] true tilt 0).settled 0
  have tree : reg.tree = .basis 1 0 1 (49 / 100) ∧ reg.config.autoReduce = false := by
    obtain ⟨-, -, generator, rfl⟩ := eq_of_create made
    exact ⟨rfl, rfl⟩
  obtain ⟨left, placed, broken⟩ := compose_lost_leaves tree.1 tree.2 (settled_tilt made')
    (by rw [Amplitude.negligible_eq_false]; norm_num)
    (by rw [Amplitude.negligible_eq_false]; norm_num)
    (by rw [Amplitude.negligible_iff, Amplitude.normSq_ofReal]; norm_num)
    (by rw [Amplitude.negligible_eq_false, Amplitude.normSq_ofReal]; norm_num)
  rw [placed] at composed
  exact ⟨reg, fresh, left, made, made', placed, composed, broken⟩

end Register

end AmplitudeTree
