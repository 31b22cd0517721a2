import AmplitudeTree.Proofs.Tree.CanonicalForm
import AmplitudeTree.Proofs.Tree.Probability

/-!
# Trees of norm one

A collapse and a normalization bring the norm of a canonical tree to one.  A range that is split off
has norm one, so the tree that is left keeps the norm of the whole.
-/

namespace AmplitudeTree.Tree

variable {t : Tree ℝ} {start length : ℕ}

theorem Sound.mass_withUnitRoot (sound : t.Sound True) (nonzero : t.store.isZero t.root = false) :
    mass t.width t.withUnitRoot.state = 1 := by
  obtain ⟨-, divided⟩ := sound.withUnitRoot nonzero
  have scaled : t.unfold.scale ≠ 0 :=
    sound.regular.scale_ne_zero (NodeStore.unfold_ne_zero.mpr nonzero)
  have quotient : t.withUnitRoot.state = (‖t.unfold.scale‖ : ℂ)⁻¹ • t.state := by
    rw [divided]
    exact funext fun bits => div_eq_inv_mul ..
  rw [quotient, mass_smul, sound.mass_state, map_inv₀, Complex.normSq_ofReal,
    Complex.norm_mul_self_eq_normSq]
  exact inv_mul_cancel₀ (Complex.normSq_eq_zero.not.mpr scaled)

theorem Sound.mass_collapse (sound : t.Sound True) {qubit : ℕ} {value : Bool}
    (kept : (t.collapse qubit value).1 = true) :
    mass t.width (t.collapse qubit value).2.state = 1 := by
  have yields := (collapse_regular sound.exact True t.width qubit value).walkFrom sound.onLevel
    (.refl _) sound.exact
  unfold Tree.collapse at kept ⊢
  generalize t.store.walkFrom 0 (collapseVisit t.store qubit value) 0 t.root t.store = result at *
  obtain ⟨root, store⟩ := result
  dsimp only at *
  split at kept
  · cases kept
  · next nonempty =>
      have walked : Sound True { t with store := store, root := root } :=
        .of_clean yields.exact yields.stored yields.clean yields.holds
      rw [if_neg nonempty]
      exact walked.mass_withUnitRoot (Bool.not_eq_true _ ▸ nonempty)

/-- A normalized tree with some amplitude has norm one. -/
theorem Sound.mass_normalize (sound : t.Sound True) (nonzero : t.store.isZero t.root = false)
    (tolerance : ℝ) : mass t.width (t.normalize tolerance).state = 1 := by
  obtain ⟨walked, kept, width, unfolded, normalized⟩ := sound.normalize_eq tolerance
  have some : walked.store.isZero walked.root = false := by
    rw [← NodeStore.unfold_ne_zero, show walked.store.unfold walked.root = t.unfold from unfolded]
    exact NodeStore.unfold_ne_zero.mpr nonzero
  rw [normalized, some, if_neg Bool.false_ne_true, ← width]
  exact kept.mass_withUnitRoot some

/-- A range that is split off a tree with some amplitude has norm one. -/
theorem Sound.mass_part (sound : t.Sound True) (nonzero : t.store.isZero t.root = false)
    (le : start + length ≤ t.width) {part : Tree ℝ} (parted : (t.split start length).1 = some part) :
    mass length part.state = 1 := by
  by_cases positive : length = 0
  · subst positive
    rw [Tree.split, show t.threshold = 0 from sound.exact.threshold_eq] at parted
    obtain rfl : basis 0 0 1 0 = part := Option.some.inj parted
    rw [(sound_basis 0 0 1).2]
    simp [mass, summed_nil]
  · obtain ⟨width, -, widths, hosts⟩ := sound.hosts start
    obtain rfl := widths nonzero
    have removed := (sound.removes_start start (start + length) t.width).addAll sound.exact
      (by omega) le hosts
    rw [split_eq t positive] at parted
    generalize removeHosts t.store start (start + length) (t.hosts start)
      ⟨t.store, .empty t.threshold, none, ∅⟩ = outcome at *
    obtain ⟨_ | _, r⟩ := outcome
    · cases parted
    · have removed : Removes t.store True start (start + length) t.width
          (fun id => id ∈ t.hosts start ∨ False) r := removed
      -- the part is a copy of what is below any of the hosts, with scale one
      obtain ⟨host, member⟩ := sound.exists_host nonzero (show start ≤ t.width by omega)
      obtain ⟨root, found⟩ := removed.begun host (Or.inl member)
      have copied := (removed.replaced host root (Or.inl member) found).holds.copied_eq
      have partSound := removed.sound_part found
      rw [Tree.splitBy, found] at parted
      obtain rfl : ofStore r.part root length = part := Option.some.inj parted
      have scale : (ofStore r.part root length).unfold.scale = 1 := by
        refine (congrArg Unfolding.scale copied).trans (Unfolding.scale_withScale ?_ 1)
        rw [Ne, Unfolding.head_eq_zero]
        exact NodeStore.unfold_ne_zero.mpr (NodeStore.mem_hosts.mp member).2
      rw [show mass length _ = _ from partSound.mass_state, scale, map_one]

end AmplitudeTree.Tree
