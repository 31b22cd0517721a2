import AmplitudeTree.Proofs.Tree.Hosts

/-!
# Removal of qubits with known values

Below every host the removed qubits have the values of an index.  The replacement of a host is the
node at the end of that path, with the scales on the path multiplied into it.
-/

namespace AmplitudeTree.Tree

open Assignment NodeStore

variable {t : Tree ℝ} {canonical : Prop} {start length width depth levels qubit : ℕ}
  {index : BasisIndex} {source s : NodeStore ℝ} {id host : NodeId}

/-- Following an index collects the scales between a node and the node at the end. -/
theorem followFrom_spec (index : BasisIndex) (levels qubit : ℕ) (exact : source.Exact)
    (onLevel : source.OnLevel canonical width depth id) (le : depth + levels ≤ width)
    (nonzero : source.isZero id = false) {a : Amplitude ℝ}
    (scaled : a.toComplex ≠ 0) :
    let result := followFrom source index levels qubit id a
    source.OnLevel canonical width (depth + levels) result.1 ∧ result.2.toComplex ≠ 0 ∧
      ∀ bits : Assignment, (∀ q, q < levels → bits (depth + q) = index.testBit (qubit + q)) →
        a.toComplex * ((source.unfold id).withScale 1).amplitude depth bits =
          result.2.toComplex *
            ((source.unfold result.1).withScale 1).amplitude (depth + levels) bits := by
  induction levels generalizing depth qubit id a with
  | zero => exact ⟨onLevel, scaled, fun _ _ => rfl⟩
  | succ levels ih =>
      cases branches : (source.get id).branches with
      | none =>
          have bottom := onLevel.eq_width nonzero branches
          omega
      | some pair =>
          obtain ⟨low, high⟩ := pair
          obtain ⟨_, lowLevel, highLevel⟩ := onLevel.branches exact.toOrdered nonzero branches
          have branch : source.branch? id (index.bit qubit) =
              some (if index.testBit qubit then high else low) := by
            rw [NodeStore.branch?, branches]
            rfl
          have childLevel : source.OnLevel canonical width (depth + 1)
              (if index.testBit qubit then high else low) := by
            split
            · exact highLevel
            · exact lowLevel
          have here (bits : Assignment)
              (along : ∀ q, q < levels + 1 → bits (depth + q) = index.testBit (qubit + q)) :
              ((source.unfold id).withScale 1).amplitude depth bits =
                (source.unfold (if index.testBit qubit then high else low)).amplitude (depth + 1)
                  bits := by
            have value : bits depth = index.testBit qubit := along 0 (Nat.succ_pos levels)
            rw [exact.unfold_of_branches nonzero branches, Unfolding.withScale,
              Unfolding.amplitude_fork, one_mul, value]
            split <;> rfl
          have levelEq : depth + 1 + levels = depth + (levels + 1) := by omega
          rw [followFrom, branch]
          dsimp only
          generalize (if index.testBit qubit then high else low) = child at childLevel here ⊢
          split
          · next empty =>
              refine ⟨⟨le, ?_⟩, scaled, fun bits along => ?_⟩
              · rw [unfold_of_isZero empty]
                exact Unfolding.regular_zero
              · rw [here bits along, unfold_of_isZero empty]
                simp
          · next some =>
              have childNonzero := Bool.not_eq_true _ ▸ some
              obtain ⟨last, factor, products⟩ := ih (qubit + 1) childLevel (by omega)
                childNonzero (a := a * (source.get child).scale) (by
                  rw [Amplitude.toComplex_mul]
                  exact mul_ne_zero scaled (exact.scale_ne_zero childNonzero))
              rw [levelEq] at last products
              refine ⟨last, factor, fun bits along => ?_⟩
              rw [here bits along, Unfolding.amplitude_eq_scale_mul,
                ← scale_of_not_isZero childNonzero, ← mul_assoc, ← Amplitude.toComplex_mul]
              refine products bits fun q below => ?_
              have along := along (q + 1) (by omega)
              rw [show depth + (q + 1) = depth + 1 + q by omega,
                show qubit + (q + 1) = qubit + 1 + q by omega] at along
              exact along

noncomputable def filledReading (start length : ℕ) (index : BasisIndex) : Rereading start where
  before := filled start length index
  after bits := bits
  beforeFactor _ := 1
  afterFactor _ := 1
  before_eq := Rereading.filled_eq start length index
  after_eq := Rereading.plain_eq start

theorem filledReading_matches {u v : Unfolding} :
    (filledReading start length index).Matches depth u v ↔ ∀ bits,
      v.amplitude depth bits = u.amplitude depth (filled start length index bits) := by
  refine forall_congr' fun bits => ?_
  rw [eq_comm (a := v.amplitude depth bits)]
  simp [filledReading]

/-- The replacement of a host has the amplitudes of the host for the values of the index. -/
theorem restrictHost_yields (exact : source.Exact) (growth : source.Extends s) (valid : s.Exact)
    (onLevel : source.OnLevel canonical width start host) (nonzero : source.isZero host = false)
    (le : start + length ≤ width) :
    s.Yields (restrictHost source length index host s) fun v =>
      v.Regular canonical (width - length - start) ∧
        (filledReading start length index).Matches start (source.unfold host) v := by
  obtain ⟨lastLevel, factor, products⟩ := followFrom_spec index length 0 exact onLevel le nonzero
    (a := 1) one_ne_zero
  have levels : width - length - start = width - (start + length) := by omega
  have amplitudes (bits : Assignment) :
      (source.unfold host).amplitude start (filled start length index bits) =
        (source.get host).scale.toComplex *
          ((followFrom source index length 0 host 1).2.toComplex *
            ((source.unfold (followFrom source index length 0 host 1).1).withScale 1).amplitude
              start bits) := by
    rw [Unfolding.amplitude_eq_scale_mul, scale_of_not_isZero nonzero]
    congr 1
    have product := products (filled start length index bits) fun q below => by
      have value := taken_filled start index bits below
      rw [taken, if_pos below] at value
      rw [value, Nat.zero_add]
    rw [Amplitude.toComplex_one, one_mul] at product
    rw [product, ← Unfolding.amplitude_dropped, dropped_filled]
  unfold restrictHost
  generalize followFrom source index length 0 host 1 = result at *
  obtain ⟨last, a⟩ := result
  dsimp only at *
  split
  · next empty =>
      refine .of_zero valid ⟨Unfolding.regular_zero, filledReading_matches.mpr fun bits => ?_⟩
      rw [amplitudes, unfold_of_isZero empty]
      simp
  · next some =>
      have lastNonzero := Bool.not_eq_true _ ▸ some
      have stored := exact.lt_size lastNonzero
      have scaled : ((source.get host).scale * a).toComplex ≠ 0 := by
        rw [Amplitude.toComplex_mul]
        exact mul_ne_zero (exact.scale_ne_zero nonzero) factor
      have pushed := valid.push_rescaled last scaled
        ((growth.isZero_eq stored).trans lastNonzero)
      rw [growth.get_eq last stored, growth.unfold_eq stored] at pushed
      refine pushed.mono fun u replaced => ?_
      rw [replaced, levels]
      refine ⟨lastLevel.regular.withScale scaled, filledReading_matches.mpr fun bits => ?_⟩
      rw [amplitudes, Unfolding.amplitude_withScale, Amplitude.toComplex_mul, mul_assoc]

noncomputable def restrictBy (t : Tree ℝ) (start length : ℕ)
    (exchange : Std.HashMap NodeId NodeId × NodeStore ℝ) : Bool × Tree ℝ :=
  let t := { t with store := exchange.2 }
  let (root, store) := t.replaceHosts start exchange.1
  if store.isZero root then (false, { t with store := store })
  else (true, { t with store := store, root := root, width := t.width - length })

structure Restricts (t : Tree ℝ) (canonical : Prop) (start length : ℕ) (index : BasisIndex)
    (result : Bool × Tree ℝ) : Prop where
  sound : result.2.Sound canonical
  removed : result.1 = true → result.2.width = t.width - length ∧
    result.2.state = fun bits => t.state (filled start length index bits)
  kept : result.1 = false → result.2.width = t.width ∧ result.2.state = t.state ∧
    ∀ bits, t.state (filled start length index bits) = 0

theorem Sound.restrictBy_of_isZero (sound : t.Sound canonical) (empty : t.store.isZero t.root = true)
    (growth : t.store.Extends s) (valid : s.Exact) (swap : Std.HashMap NodeId NodeId) :
    t.Restricts canonical start length index (t.restrictBy start length (swap, s)) := by
  obtain ⟨grown, kept⟩ := sound.grow growth valid
  have result : t.restrictBy start length (swap, s) = (false, { t with store := s }) := by
    unfold Tree.restrictBy
    dsimp only
    rw [replaceHosts_of_isZero ((growth.isZero_eq sound.stored).trans empty)]
    rfl
  rw [result]
  refine ⟨grown, fun impossible => Bool.noConfusion impossible, fun _ => ⟨rfl, ?_, fun bits => ?_⟩⟩
  · unfold state
    rw [kept]
  · unfold state
    rw [isZero_iff_unfold_eq.mp empty]
    rfl

theorem Sound.restrictBy (sound : t.Sound canonical) (nonzero : t.store.isZero t.root = false)
    (growth : t.store.Extends s) (valid : s.Exact) (le : start + length ≤ t.width)
    {swap : Std.HashMap NodeId NodeId}
    (replaced : ∀ host ∈ t.hosts start, s.Holds (swap.getD host host) fun v =>
      v.Regular canonical (t.width - length - start) ∧
        (filledReading start length index).Matches start (t.store.unfold host) v) :
    t.Restricts canonical start length index (t.restrictBy start length (swap, s)) := by
  have yields := sound.replaceHosts nonzero (filledReading start length index) growth valid
    (by omega) (show start ≤ t.width - length by omega) replaced
  unfold Tree.restrictBy
  dsimp only
  generalize Tree.replaceHosts { t with store := s } start swap = replacement at *
  obtain ⟨root, store⟩ := replacement
  have amplitudes := filledReading_matches.mp yields.holds.2
  dsimp only at *
  split
  · next empty =>
      obtain ⟨grown, kept⟩ := sound.grow (growth.trans yields.growth) yields.exact
      refine ⟨grown, fun impossible => Bool.noConfusion impossible,
        fun _ => ⟨rfl, ?_, fun bits => ?_⟩⟩
      · unfold state
        rw [kept]
      · unfold state
        rw [← amplitudes, unfold_of_isZero empty]
        rfl
  · have carries := yields.mono fun v found =>
      show v.Carries canonical 0 (t.width - length) fun bits =>
          t.state (filled start length index bits) from
        ⟨Nat.zero_le _, found.1, filledReading_matches.mp found.2⟩
    obtain ⟨restricted, states⟩ := sound_of_yields carries t.reducedSize
    exact ⟨restricted, fun _ => ⟨rfl, states⟩, fun impossible => Bool.noConfusion impossible⟩

/-- Removing qubits with known values leaves the amplitudes for these values, or the state if there
are none. -/
theorem Sound.restrict (sound : t.Sound canonical) (le : start + length ≤ t.width)
    (index : BasisIndex) :
    t.Restricts canonical start length index (t.restrict start length index) := by
  obtain ⟨width, deeper, widths, hosts⟩ := sound.hosts start
  obtain ⟨growth, valid, replaced⟩ := foldl_swap
    (restrictHost t.store length index)
    (fun id v => v.Regular canonical (width - length - start) ∧
      (filledReading start length index).Matches start (t.store.unfold id) v)
    (t.hosts start)
    (fun host member s extended kept => restrictHost_yields sound.exact extended kept
      (hosts host member).1 (hosts host member).2 (le.trans deeper))
    (.refl _) sound.exact
  cases nonzero : t.store.isZero t.root with
  | true => exact sound.restrictBy_of_isZero nonzero growth valid _
  | false =>
      obtain rfl := widths nonzero
      exact sound.restrictBy nonzero growth valid le replaced

theorem isZero_restrict (kept : (t.restrict start length index).1 = true) :
    (t.restrict start length index).2.store.isZero (t.restrict start length index).2.root = false := by
  unfold Tree.restrict at kept ⊢
  dsimp only at kept ⊢
  split at kept
  · cases kept
  · next nonempty =>
      rw [if_neg nonempty]
      exact Bool.not_eq_true _ ▸ nonempty

end AmplitudeTree.Tree
