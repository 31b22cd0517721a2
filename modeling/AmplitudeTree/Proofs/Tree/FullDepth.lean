import AmplitudeTree.Proofs.BasisIndex
import AmplitudeTree.Proofs.Tree.Apply
import AmplitudeTree.Proofs.Tree.Hosts

/-!
# Gates on trees of full depth

In a tree of full depth every path through nodes that are not zero goes on to a leaf below the last
qubit.  Nothing is asked of the scales, so the tree may be far from its canonical form.  A gate
given by any matrix acts on the pairs of amplitudes of such a tree whose indices differ in the
target, where all controls have their values.
-/

namespace AmplitudeTree

namespace Tree

variable {t : Tree ℝ} {canonical : Prop} {gate : Gate ℝ} {controls : List Control}
  {target depth : ℕ} {id child : NodeId}

/-- An exact tree whose paths through nodes that are not zero all end below the last qubit. -/
structure FullDepth (t : Tree ℝ) : Prop where
  exact : t.store.Exact
  stored : t.root < t.store.size
  fork : ∀ {depth id}, depth < t.width → t.Reaches depth id →
    ∃ low high, (t.store.get id).branches = some (low, high) ∧
      (t.store.isZero low = false ∨ t.store.isZero high = false)
  leaf : ∀ {id}, t.Reaches t.width id → (t.store.get id).branches = none

namespace Reaches

theorem step (reaches : t.Reaches depth id) (branch : t.store.IsBranch id child) :
    t.Reaches (depth + 1) child :=
  ⟨reaches.1, reaches.2.step branch⟩

theorem not_isZero (reaches : t.Reaches depth id) : t.store.isZero id = false := by
  obtain ⟨rootNonzero, descends⟩ := reaches
  generalize t.root = root at *
  induction depth generalizing root with
  | zero =>
      obtain rfl : id = root := descends
      exact rootNonzero
  | succ depth ih =>
      obtain ⟨child, branch, rest⟩ := descends
      obtain ⟨_, _, _, _, childNonzero⟩ := branch
      exact ih child childNonzero rest

end Reaches

theorem FullDepth.onLevel (full : t.FullDepth) (le : depth ≤ t.width)
    (reaches : t.Reaches depth id) : t.store.OnLevel False t.width depth id := by
  refine ⟨le, ?_⟩
  obtain ⟨levels, split⟩ := Nat.exists_eq_add_of_le le
  rw [split, Nat.add_sub_cancel_left]
  -- the induction runs from the leaves up
  induction levels generalizing depth id with
  | zero =>
      obtain rfl : t.width = depth := split
      have leaf := full.leaf reaches
      rw [NodeStore.unfold_of_leaf reaches.not_isZero leaf]
      intro unscaled
      have empty := full.exact.isZero_iff.mpr (.inr unscaled)
      rw [reaches.not_isZero] at empty
      cases empty
  | succ levels ih =>
      obtain ⟨low, high, branches, some⟩ := full.fork (by omega) reaches
      have below (child : NodeId) (which : child = low ∨ child = high) :
          (t.store.unfold child).Regular False levels := by
        cases empty : t.store.isZero child with
        | true =>
            rw [NodeStore.unfold_of_isZero empty]
            exact Unfolding.regular_zero
        | false =>
            exact ih (by omega) (reaches.step ⟨low, high, branches, which, empty⟩) (by omega)
      rw [full.exact.unfold_of_branches reaches.not_isZero branches]
      refine ⟨fun unscaled => ?_, ?_, below low (.inl rfl), below high (.inr rfl), False.elim⟩
      · have empty := full.exact.isZero_iff.mpr (.inr unscaled)
        rw [reaches.not_isZero] at empty
        cases empty
      · rwa [NodeStore.unfold_ne_zero, NodeStore.unfold_ne_zero]

/-- A tree of full depth with any amplitude is sound. -/
theorem FullDepth.sound (full : t.FullDepth) (nonzero : t.store.isZero t.root = false) :
    t.Sound False := by
  refine .of_clean full.exact full.stored (fun empty => ?_) ?_
  · rw [nonzero] at empty
    cases empty
  · exact (full.onLevel (Nat.zero_le _) ⟨nonzero, rfl⟩).regular

theorem Sound.fullDepth (sound : t.Sound canonical) : t.FullDepth where
  exact := sound.exact
  stored := sound.stored
  fork {depth id} below reaches := by
    have ordered := sound.exact.toOrdered
    obtain ⟨onLevel, nonzero⟩ := sound.onLevel.descends ordered reaches.1 reaches.2
    rw [Nat.zero_add] at onLevel
    cases branches : (t.store.get id).branches with
    | none => exact absurd (onLevel.eq_width nonzero branches) below.ne
    | some pair =>
        obtain ⟨low, high⟩ := pair
        obtain ⟨_, some, _⟩ := onLevel.fork ordered nonzero branches
        rw [NodeStore.unfold_ne_zero, NodeStore.unfold_ne_zero] at some
        exact ⟨low, high, rfl, some⟩
  leaf {id} reaches := by
    have ordered := sound.exact.toOrdered
    obtain ⟨onLevel, nonzero⟩ := sound.onLevel.descends ordered reaches.1 reaches.2
    rw [Nat.zero_add] at onLevel
    cases branches : (t.store.get id).branches with
    | none => rfl
    | some pair => exact absurd (onLevel.branches ordered nonzero branches).1 (lt_irrefl _)

/-- Without amplitude at the root all amplitudes are zero. -/
theorem amplitude_of_isZero (empty : t.store.isZero t.root = true) (index : BasisIndex) :
    t.amplitude index = 0 :=
  if_pos empty

/-- A gate makes the zero node the root of a tree without amplitude. -/
theorem apply_of_isZero (gate : Gate ℝ) (controls : List Control) (target : ℕ)
    (empty : t.store.isZero t.root = true) :
    t.apply gate controls target = { t with root := 0 } := by
  rw [apply, NodeStore.walkFrom]
  dsimp only
  rw [NodeStore.walk, if_pos empty]
  rfl

theorem FullDepth.apply (full : t.FullDepth) (gate : Gate ℝ)
    (admissible : Admissible controls target t.width) :
    (t.apply gate controls target).FullDepth := by
  cases nonzero : t.store.isZero t.root with
  | true =>
      rw [apply_of_isZero gate controls target nonzero]
      have unreached {depth : ℕ} {id : NodeId} : ¬Reaches { t with root := 0 } depth id :=
        fun reaches => Bool.noConfusion reaches.1
      exact ⟨full.exact, full.exact.nonempty, fun _ reaches => (unreached reaches).elim,
        fun reaches => (unreached reaches).elim⟩
  | false => exact ((full.sound nonzero).apply gate admissible).1.fullDepth

/-- The amplitudes after a gate, for the two values of the target. -/
theorem Sound.state_apply_update (sound : t.Sound canonical) (gate : Gate ℝ)
    (admissible : Admissible controls target t.width) (bits : Assignment) (value : Bool) :
    (t.apply gate controls target).state (Function.update bits target value) =
      if selected controls bits then
        gate.mixed value (t.state (Function.update bits target false))
          (t.state (Function.update bits target true))
      else t.state (Function.update bits target value) := by
  rw [(sound.apply gate admissible).2, Gate.actWhere, selected_update admissible.other, Gate.act,
    Function.update_self, Function.update_idem, Function.update_idem]

/-- On every tree of full depth, a controlled gate multiplies each pair of amplitudes that differ in
the target by the matrix if all controls have their values, and else leaves it alone. -/
theorem FullDepth.apply_pair (full : t.FullDepth) (gate : Gate ℝ) (below : target < t.width)
    (ascending : controls.Pairwise fun first second => first.qubit < second.qubit)
    (inside : ∀ control ∈ controls, control.qubit < t.width)
    (other : ∀ control ∈ controls, control.qubit ≠ target) (index : BasisIndex) :
    ((t.apply gate controls target).amplitude (index.clear (.power target)),
        (t.apply gate controls target).amplitude (index ||| .power target)) =
      if controls.all fun control => index.bit control.qubit == control.value then
        gate.apply (t.amplitude (index.clear (.power target)))
          (t.amplitude (index ||| .power target))
      else (t.amplitude (index.clear (.power target)), t.amplitude (index ||| .power target)) := by
  change _ = if selected controls index.testBit then _ else _
  cases nonzero : t.store.isZero t.root with
  | true =>
      have after : ∀ index, (t.apply gate controls target).amplitude index = 0 := by
        rw [apply_of_isZero gate controls target nonzero]
        exact amplitude_of_isZero rfl
      rw [after, after, amplitude_of_isZero nonzero, amplitude_of_isZero nonzero]
      have unmoved : gate.apply 0 0 = (0, 0) := by
        obtain ⟨first, second⟩ := gate.toComplex_apply 0 0
        rw [Amplitude.toComplex_zero, Gate.mixed_zero] at first second
        exact Prod.ext (Amplitude.toComplex_injective first) (Amplitude.toComplex_injective second)
      rw [unmoved, ite_self]
  | false =>
      have sound := full.sound nonzero
      have admissible : Admissible controls target t.width :=
        ⟨⟨ascending, fun control member => ⟨Nat.zero_le _, inside control member⟩⟩, below, other⟩
      have after := (sound.apply gate admissible).1
      have step := sound.state_apply_update gate admissible index.testBit
      obtain ⟨first, second⟩ := gate.toComplex_apply (t.amplitude (index.clear (.power target)))
        (t.amplitude (index ||| .power target))
      rw [sound.toComplex_amplitude, sound.toComplex_amplitude, BasisIndex.testBit_clear_power,
        BasisIndex.testBit_or_power] at first second
      apply Prod.ext <;> rw [← Amplitude.toComplex_inj, after.toComplex_amplitude]
      · rw [BasisIndex.testBit_clear_power, step]
        split
        · exact first.symm
        · rw [sound.toComplex_amplitude, BasisIndex.testBit_clear_power]
      · rw [BasisIndex.testBit_or_power, step]
        split
        · exact second.symm
        · rw [sound.toComplex_amplitude, BasisIndex.testBit_or_power]

/-- A singular matrix on the middle one of three qubits, with controls of both values,
copies an amplitude. -/
theorem apply_pair_singular :
    (((basis 3 1 1 0).apply ⟨1, 1, 1, 1⟩ [⟨0, true⟩, ⟨2, false⟩] 1).amplitude (1 : BasisIndex),
        ((basis 3 1 1 0).apply ⟨1, 1, 1, 1⟩ [⟨0, true⟩, ⟨2, false⟩] 1).amplitude (3 : BasisIndex)) =
      ((1, 1) : Amplitude ℝ × Amplitude ℝ) := by
  obtain ⟨sound, state⟩ := sound_basis 3 1 1
  have one : (basis 3 1 (1 : Amplitude ℝ) 0).amplitude (1 : BasisIndex) = 1 := by
    rw [← Amplitude.toComplex_inj, sound.toComplex_amplitude, state]
    dsimp only
    rw [basisState, if_pos fun _ _ _ => rfl, mul_one]
  have three : (basis 3 1 (1 : Amplitude ℝ) 0).amplitude (3 : BasisIndex) = 0 := by
    rw [← Amplitude.toComplex_inj, sound.toComplex_amplitude, state]
    dsimp only
    rw [basisState, if_neg fun same => absurd (same 1 (by decide) (by decide)) (by decide), mul_zero,
      Amplitude.toComplex_zero]
  have ascending : [(⟨0, true⟩ : Control), ⟨2, false⟩].Pairwise
      fun first second => first.qubit < second.qubit := by decide
  have pair := sound.fullDepth.apply_pair ⟨1, 1, 1, 1⟩ (show 1 < 3 by decide) ascending (by decide)
    (by decide) 1
  rw [if_pos (by decide)] at pair
  change (_, _) = Gate.apply _ (amplitude _ 1) (amplitude _ 3) at pair
  rw [one, three] at pair
  refine pair.trans (Prod.ext ?_ ?_) <;> rw [← Amplitude.toComplex_inj] <;> simp [Gate.apply]

end Tree

end AmplitudeTree
