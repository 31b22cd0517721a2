import AmplitudeTree.Proofs.Register.Attainable
import AmplitudeTree.Proofs.Register.Basic
import AmplitudeTree.Proofs.Tree.Measure

/-!
# The width of registers

A basis index addresses at most `BasisIndex.maxWidth` qubits.  Fresh registers and compositions are
refused beyond this width.  An allocation is not, so a register stays addressable just in case
nothing is allocated in it beyond this width.
-/

namespace AmplitudeTree

variable {R : Type} [Scalar R]

namespace Tree

/-! ## Insertion -/

theorem width_insert_le (t other : Tree R) (start : ℕ) :
    (t.insert other start).width ≤ t.width + other.width := by
  unfold insert
  generalize t.store.copyFrom other.store other.root = copied
  obtain ⟨top, store, finished⟩ := copied
  dsimp only
  split
  · exact le_refl _
  · split
    · exact Nat.le_add_right _ _
    · exact le_refl _

/-- The path of a basis state ends in a node with branches, unless it is empty. -/
theorem basisPath_branches (index : BasisIndex) (phase : Amplitude R) {levels : ℕ}
    (some : 0 < levels) (child : NodeId) (s : NodeStore R) :
    ((basisPath index phase levels child s).2.get
      (basisPath index phase levels child s).1).branches.isSome = true := by
  induction levels generalizing child s with
  | zero => exact absurd some (Nat.lt_irrefl 0)
  | succ level ih =>
      cases level with
      | zero =>
          change (NodeStore.get (s.push _).2 s.size).branches.isSome = true
          rw [NodeStore.get_push]
          rfl
      | succ level => exact ih (Nat.succ_pos level) _ _

theorem basis_branches {width : ℕ} (some : 0 < width) (index : BasisIndex) (phase : Amplitude R)
    (threshold : R) :
    ((basis width index phase threshold).store.get
      (basis width index phase threshold).root).branches.isSome = true :=
  basisPath_branches index phase some _ _

/-- A copy of a node with branches has branches, unless it is the zero node. -/
theorem copyFrom_branches (s source : NodeStore R) {root : NodeId}
    (branches : (source.get root).branches.isSome = true) :
    (s.copyFrom source root).1 = 0 ∨
      ((s.copyFrom source root).2.state.get (s.copyFrom source root).1).branches.isSome = true := by
  unfold NodeStore.copyFrom
  rw [NodeStore.walk]
  split
  · exact .inl rfl
  · have fresh : (Progress.start s : Progress (NodeStore R) NodeId).finished[root]? = none := by
      simp [Progress.start]
    rw [fresh]
    dsimp only [NodeStore.copyVisit]
    cases found : (source.get root).branches with
    | none => rw [found] at branches; cases branches
    | some pair =>
        dsimp only
        cases source.children root with
        | none => exact .inl rfl
        | some c =>
            dsimp only
            refine .inr ?_
            rw [NodeStore.fst_push, NodeStore.get_push]
            rfl

/-- An inserted tree adds its qubits if its root has branches. -/
theorem width_insert_of_branches (t : Tree R) {other : Tree R}
    (branches : (other.store.get other.root).branches.isSome = true) (start : ℕ) :
    (t.insert other start).width = t.width + other.width := by
  have copied := copyFrom_branches t.store other.store branches
  unfold insert
  generalize t.store.copyFrom other.store other.root = copy at copied
  obtain ⟨top, store, finished⟩ := copy
  dsimp only at copied ⊢
  split
  · rfl
  · next nonempty =>
      split
      · next leaf =>
          rcases copied with rfl | found
          · exact absurd rfl nonempty
          · rw [leaf] at found
            cases found
      · rfl

/-! ## Other changes -/

theorem width_split (t : Tree R) (start length : ℕ) :
    (t.split start length).2.width =
      if (t.split start length).1.isSome then t.width - length else t.width := by
  unfold split
  split
  · next none =>
      rw [eq_of_beq none]
      rfl
  · dsimp only
    split
    · rfl
    · split <;> rfl

theorem width_split_le (t : Tree R) (start length : ℕ) :
    (t.split start length).2.width ≤ t.width := by
  rw [width_split]
  split
  · exact Nat.sub_le _ _
  · exact le_refl _

theorem width_part {t part : Tree R} {start length : ℕ}
    (parted : (t.split start length).1 = some part) : part.width = length := by
  unfold split at parted
  split at parted
  · next none =>
      cases parted
      exact (beq_iff_eq.mp none).symm
  · dsimp only at parted
    split at parted
    · cases parted
    · split at parted <;> (cases parted; rfl)

theorem width_restrict (t : Tree R) (start length : ℕ) (value : BasisIndex) :
    (t.restrict start length value).2.width =
      if (t.restrict start length value).1 then t.width - length else t.width := by
  unfold restrict
  dsimp only
  split <;> rfl

theorem width_restrict_le (t : Tree R) (start length : ℕ) (value : BasisIndex) :
    (t.restrict start length value).2.width ≤ t.width := by
  rw [width_restrict]
  split
  · exact Nat.sub_le _ _
  · exact le_refl _

end Tree

namespace Register

open AmplitudeTree.Action

variable {reg : Register R} {start length : ℕ} {admits : Config R → Prop}

theorem width_afterChange (reg : Register R) : reg.afterChange.width = reg.width := by
  unfold afterChange width
  dsimp only
  split
  · rfl
  · unfold Tree.reduceIfBloated
    split <;> rfl

/-- The register and the qubits allocated in it can be addressed together. -/
def Fits (reg : Register R) (length : ℕ) : Prop := reg.width + length ≤ BasisIndex.maxWidth

/-- No change but an allocation makes a register wider than an index can address. -/
theorem stable_width :
    Stable admits Fits fun reg : Register R => reg.width ≤ BasisIndex.maxWidth where
  create {width index config entropy reg} _ made := by
    unfold create at made
    cases valid : config.validate.mapError RegisterError.config with
    | error e => rw [valid] at made; cases made
    | ok _ =>
        rw [valid] at made
        by_cases wide : BasisIndex.maxWidth < width
        · simp only [if_pos wide] at made
          cases made
        · simp only [if_neg wide] at made
          cases addressed : (index.check width).mapError RegisterError.indexOutOfRange with
          | error e => rw [addressed] at made; cases made
          | ok _ =>
              rw [addressed] at made
              cases made
              exact not_lt.mp wide
  generator _ narrow := narrow
  factory _ narrow := narrow
  append _ _ narrow := narrow
  erase _ narrow := narrow
  clear narrow := narrow
  apply _ _ _ narrow := narrow
  reduce narrow := narrow
  basis _ _ narrow := narrow
  treeOf _ narrow := narrow
  normalize narrow := (Tree.width_normalize _ _).trans_le narrow
  collapse _ _ narrow := (Tree.width_collapse _ _ _).trans_le narrow
  empty fewer narrow := fewer.trans narrow
  insert _ total _ _ := (Tree.width_insert_le _ _ _).trans total
  allocate _ fits _ := (Tree.width_insert_le _ _ _).trans fits
  entangled _ _ _ narrow := (Tree.width_split_le _ _ _).trans narrow
  rest _ _ _ narrow := (Tree.width_split_le _ _ _).trans narrow
  part _ _ inside parted narrow _ :=
    (Tree.width_part parted).trans_le ((Nat.le_add_left _ _).trans (inside.trans narrow))
  impossible _ _ _ _ narrow := (Tree.width_restrict_le _ _ _ _).trans narrow
  restrict _ _ _ _ narrow := (Tree.width_restrict_le _ _ _ _).trans narrow

/-- An allocation adds all its qubits, however wide the register gets. -/
theorem allocate_adds (within : start ≤ reg.width) (length : ℕ) :
    ∃ left, (allocate start length).runOn reg = (.ok start, left) ∧
      left.width = reg.width + length := by
  rw [allocate, runOn_bind, runOn_get]
  dsimp only
  rw [if_neg (not_lt.mpr within)]
  by_cases none : length = 0
  · exact ⟨reg, by rw [none]; rfl, by rw [none]; rfl⟩
  · rw [if_neg (by rwa [beq_iff_eq])]
    refine ⟨_, rfl, ?_⟩
    rw [width_afterChange]
    exact Tree.width_insert_of_branches _
      (Tree.basis_branches (Nat.pos_of_ne_zero none) 0 1 reg.threshold) start

/-- A register without allocations beyond the addressable width can be addressed, but each of its
allocations returns, also one beyond this width. -/
theorem width_le_maxWidth_and_allocate_adds (attainable : Attainable admits Fits reg) :
    reg.width ≤ BasisIndex.maxWidth ∧
      ∀ start length, start ≤ reg.width → ∃ left,
        (allocate start length).runOn reg = (.ok start, left) ∧
          left.width = reg.width + length ∧
          (left.width ≤ BasisIndex.maxWidth ↔ reg.Fits length) := by
  refine ⟨attainable.holds stable_width, fun start length within => ?_⟩
  obtain ⟨left, run, width⟩ := allocate_adds within length
  exact ⟨left, run, width, by rw [width, Fits]⟩

/-- One more qubit in a register of 128 qubits. -/
theorem allocate_beyond_maxWidth :
    ∃ reg left : Register ℝ, create 128 0 exactConfig 0 = .ok reg ∧
      (allocate 128 1).runOn reg = (.ok 128, left) ∧ left.width = 129 ∧
      BasisIndex.maxWidth < left.width := by
  have addressed : BasisIndex.check 0 128 = .ok () := rfl
  obtain ⟨reg, made⟩ := exists_create validate_exactConfig (le_refl 128) addressed 0
  have width : reg.width = 128 := by
    obtain ⟨-, -, generator, rfl⟩ := eq_of_create made
    rfl
  have attainable : Attainable (fun _ => True) Fits reg := .create trivial made
  obtain ⟨-, allocates⟩ := width_le_maxWidth_and_allocate_adds attainable
  obtain ⟨left, run, wide, -⟩ := allocates 128 1 width.ge
  have wide : left.width = 129 := by rw [wide, width]
  exact ⟨reg, left, made, run, wide, by rw [wide]; decide⟩

end Register

end AmplitudeTree
