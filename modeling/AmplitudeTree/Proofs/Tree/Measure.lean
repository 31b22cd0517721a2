import AmplitudeTree.Proofs.Tree.Basic
import AmplitudeTree.Tree.Measure

/-!
# Collapse of exact trees

A collapse keeps the amplitudes with the measured value and divides them by their common modulus.
-/

namespace AmplitudeTree.Tree

variable {t : Tree ℝ} {canonical : Prop} {qubit : ℕ} {value : Bool}

noncomputable def projected (qubit : ℕ) (value : Bool) (state : Assignment → ℂ)
    (bits : Assignment) : ℂ :=
  if bits qubit = value then state bits else 0

theorem projected_smul (qubit : ℕ) (value : Bool) (c : ℂ) (state : Assignment → ℂ) :
    projected qubit value (c • state) = c • projected qubit value state := by
  funext bits
  unfold projected
  rw [Pi.smul_apply, Pi.smul_apply]
  split
  · rfl
  · exact (smul_zero c).symm

section Visits

variable {R : Type} [Scalar R] {s : NodeStore R} {depth : ℕ} {id : NodeId} {wanted : Bool}

theorem collapseVisit_eq_answer {result : NodeStore R → NodeId × NodeStore R}
    (visited : collapseVisit s qubit wanted depth id = .answer result) :
    ((s.get id).branches = none ∧ result = fun t => (id, t)) ∨
      ∃ low high, (s.get id).branches = some (low, high) ∧ depth = qubit ∧
        result = fun t =>
          if wanted then t.join (s.get id).scale 0 high else t.join (s.get id).scale low 0 := by
  dsimp only [collapseVisit] at visited
  split at visited
  · next leaf => exact .inl ⟨leaf, (Visit.answer.inj visited).symm⟩
  · next low high branches =>
      split at visited
      · next here =>
          exact .inr ⟨low, high, branches, beq_iff_eq.mp here, (Visit.answer.inj visited).symm⟩
      · cases visited

theorem collapseVisit_eq_descend {given given' : Option NodeId}
    {combine : NodeId → NodeId → NodeStore R → NodeId × NodeStore R}
    (visited : collapseVisit s qubit wanted depth id = .descend given given' combine) :
    depth ≠ qubit ∧ ∃ low high, (s.get id).branches = some (low, high) ∧ given = none ∧
      given' = none ∧ combine = fun low high t => t.join (s.get id).scale low high := by
  dsimp only [collapseVisit] at visited
  split at visited
  · cases visited
  · next low high branches =>
      split at visited
      · cases visited
      · next elsewhere =>
          cases visited
          exact ⟨mt beq_iff_eq.mpr elsewhere, low, high, branches, rfl, rfl, rfl⟩

end Visits

/-- The walk of a collapse cuts the branches for the other value. -/
theorem collapse_appends {s : NodeStore ℝ} (exact : s.Exact) {width : ℕ} (inside : qubit < width)
    (value : Bool) :
    s.Appends s (collapseVisit s qubit value)
      (fun depth id => s.OnLevel canonical width depth id ∧ depth ≤ qubit)
      fun depth id u =>
        u.Carries canonical depth width (projected qubit value ((s.unfold id).amplitude depth)) where
  level_unique met again := met.1.unique again.1
  zero met empty := by
    refine Unfolding.carries_zero met.1.le fun bits => ?_
    rw [projected, NodeStore.unfold_of_isZero empty]
    split <;> rfl
  answer {depth id result t} met nonzero visited growth valid := by
    obtain ⟨onLevel, above⟩ := met
    obtain ⟨leaf, rfl⟩ | ⟨low, high, branches, rfl, rfl⟩ := collapseVisit_eq_answer visited
    · have bottom := onLevel.eq_width nonzero leaf
      omega
    · obtain ⟨below, lowLevel, highLevel⟩ := onLevel.branches exact.toOrdered nonzero branches
      obtain ⟨lowLt, highLt⟩ := exact.branches_lt branches
      have lowStored := lowLt.trans (exact.lt_size nonzero)
      have highStored := highLt.trans (exact.lt_size nonzero)
      have cut : (t.unfold 0).Carries canonical (depth + 1) width fun _ => 0 := by
        rw [NodeStore.unfold_zero]
        exact Unfolding.carries_zero below fun _ => rfl
      have lowCarries := lowLevel.carries
      have highCarries := highLevel.carries
      rw [← growth.unfold_eq lowStored] at lowCarries
      rw [← growth.unfold_eq highStored] at highCarries
      cases value with
      | true =>
          refine (valid.join_carries _ (highStored.trans_le growth.size_le) cut
            highCarries).mono fun u carries => carries.congr fun bits => ?_
          rw [projected, exact.amplitude_of_branches nonzero branches,
            growth.unfold_eq highStored]
          cases bits depth <;> simp
      | false =>
          refine (valid.join_carries _ valid.nonempty lowCarries cut).mono
            fun u carries => carries.congr fun bits => ?_
          rw [projected, exact.amplitude_of_branches nonzero branches,
            growth.unfold_eq lowStored]
          cases bits depth <;> simp
  descend {depth id given given' combine} met nonzero visited := by
    obtain ⟨onLevel, above⟩ := met
    obtain ⟨elsewhere, low, high, branches, rfl, rfl, rfl⟩ := collapseVisit_eq_descend visited
    have above := lt_of_le_of_ne above elsewhere
    obtain ⟨_, lowLevel, highLevel⟩ := onLevel.branches exact.toOrdered nonzero branches
    refine ⟨_, exact.children_eq branches, fun _ => ⟨lowLevel, above⟩,
      fun _ => ⟨highLevel, above⟩, ?_⟩
    intro t newLow newHigh _ valid lowCarries highCarries
    refine (valid.join_carries _ highCarries.1 lowCarries.2 highCarries.2).mono
      fun u carries => carries.congr fun bits => ?_
    unfold projected
    rw [exact.amplitude_of_branches nonzero branches]
    cases bits depth <;> split <;> simp

/-- A collapse leaves a sound tree; if nothing is left for the value, the state is kept. -/
theorem Sound.collapse (sound : t.Sound canonical) (inside : qubit < t.width) (value : Bool) :
    (t.collapse qubit value).2.Sound canonical ∧
      if (t.collapse qubit value).1 then
        ∃ factor : ℝ, 0 < factor ∧ (t.collapse qubit value).2.state =
          fun bits => projected qubit value t.state bits / (factor : ℂ)
      else (t.collapse qubit value).2.state = t.state ∧ projected qubit value t.state = 0 := by
  have yields := (collapse_appends sound.exact inside value).walkFrom
    ⟨sound.onLevel, Nat.zero_le _⟩ (.refl _) sound.exact
  unfold Tree.collapse
  generalize t.store.walkFrom 0 (collapseVisit t.store qubit value) 0 t.root t.store = result at *
  obtain ⟨root, store⟩ := result
  dsimp only
  split
  · next empty =>
      obtain ⟨grown, kept⟩ := sound.grow yields.growth yields.exact
      refine ⟨grown, ?_⟩
      rw [if_neg Bool.false_ne_true]
      refine ⟨?_, funext fun bits => ?_⟩
      · rw [state, kept]
        rfl
      · have amplitude := yields.holds.amplitude_eq bits
        rw [NodeStore.unfold_of_isZero empty] at amplitude
        exact amplitude.symm
  · next nonempty =>
      have nonzero := Bool.not_eq_true _ ▸ nonempty
      obtain ⟨walked, states⟩ := sound_of_yields yields t.reducedSize
      obtain ⟨unit, divided⟩ := walked.withUnitRoot nonzero
      rw [if_pos rfl]
      refine ⟨unit, _, norm_pos_iff.mpr
        (walked.regular.scale_ne_zero (NodeStore.unfold_ne_zero.mpr nonzero)), ?_⟩
      rw [divided, states]
      rfl

@[simp]
theorem width_collapse {R : Type} [Scalar R] (t : Tree R) (qubit : ℕ) (value : Bool) :
    (t.collapse qubit value).2.width = t.width := by
  unfold collapse
  dsimp only
  split <;> rfl

end AmplitudeTree.Tree
