import Mathlib.Tactic.Ring
import AmplitudeTree.Proofs.Unfolding.Basic
import AmplitudeTree.Tree.Apply

/-!
# Gates on states

A state gives every assignment its amplitude.  A gate on a qubit mixes the amplitudes of the two
assignments that differ in this qubit; a controlled gate does so where its controls have their
values.
-/

namespace AmplitudeTree

def selected (controls : List Control) (bits : Assignment) : Bool :=
  controls.all fun control => bits control.qubit == control.value

@[simp]
theorem selected_nil (bits : Assignment) : selected [] bits = true := rfl

theorem selected_cons (control : Control) (rest : List Control) (bits : Assignment) :
    selected (control :: rest) bits =
      (bits control.qubit == control.value && selected rest bits) := rfl

theorem selected_congr {controls : List Control} {bits other : Assignment}
    (same : ∀ control ∈ controls, bits control.qubit = other control.qubit) :
    selected controls bits = selected controls other := by
  unfold selected
  induction controls with
  | nil => rfl
  | cons control rest ih =>
      rw [List.all_cons, List.all_cons, same control List.mem_cons_self,
        ih fun c member => same c (List.mem_cons_of_mem _ member)]

/-- A qubit that is no control does not matter. -/
theorem selected_update {controls : List Control} {qubit : ℕ}
    (other : ∀ control ∈ controls, control.qubit ≠ qubit) (bits : Assignment) (value : Bool) :
    selected controls (Function.update bits qubit value) = selected controls bits :=
  selected_congr fun control member => Function.update_of_ne (other control member) _ _

def asControls (controls : List ℕ) (value : Bool) : List Control :=
  controls.map fun qubit => ⟨qubit, value⟩

theorem selected_asControls (controls : List ℕ) (value : Bool) (bits : Assignment) :
    selected (asControls controls value) bits = controls.all fun qubit => bits qubit == value := by
  rw [selected, asControls, List.all_map]
  rfl

namespace Gate

variable {g f : Gate ℝ} {qubit : ℕ} {state : Assignment → ℂ}

noncomputable def mixed (g : Gate ℝ) (value : Bool) (zero one : ℂ) : ℂ :=
  if value then g.bottomLeft.toComplex * zero + g.bottomRight.toComplex * one
  else g.topLeft.toComplex * zero + g.topRight.toComplex * one

theorem toComplex_apply (g : Gate ℝ) (zero one : Amplitude ℝ) :
    (g.apply zero one).1.toComplex = g.mixed false zero.toComplex one.toComplex ∧
      (g.apply zero one).2.toComplex = g.mixed true zero.toComplex one.toComplex :=
  ⟨rfl, rfl⟩

theorem mixed_zero (g : Gate ℝ) (value : Bool) : g.mixed value 0 0 = 0 := by
  unfold mixed
  split <;> ring

theorem mixed_mul (g : Gate ℝ) (value : Bool) (zero one factor : ℂ) :
    g.mixed value (zero * factor) (one * factor) = g.mixed value zero one * factor := by
  unfold mixed
  split <;> ring

noncomputable def act (g : Gate ℝ) (qubit : ℕ) (state : Assignment → ℂ) (bits : Assignment) : ℂ :=
  g.mixed (bits qubit) (state (Function.update bits qubit false))
    (state (Function.update bits qubit true))

/-- The state after a gate that acts where its controls have their values. -/
noncomputable def actWhere (g : Gate ℝ) (controls : List Control) (qubit : ℕ)
    (state : Assignment → ℂ) (bits : Assignment) : ℂ :=
  if selected controls bits then g.act qubit state bits else state bits

theorem act_smul (g : Gate ℝ) (qubit : ℕ) (c : ℂ) (state : Assignment → ℂ) :
    g.act qubit (c • state) = c • g.act qubit state := by
  funext bits
  simp only [act, Pi.smul_apply, smul_eq_mul, mul_comm c, mixed_mul]

theorem actWhere_smul (g : Gate ℝ) (controls : List Control) (qubit : ℕ) (c : ℂ)
    (state : Assignment → ℂ) :
    g.actWhere controls qubit (c • state) = c • g.actWhere controls qubit state := by
  funext bits
  unfold actWhere
  rw [act_smul, Pi.smul_apply, Pi.smul_apply, Pi.smul_apply]
  split <;> rfl

theorem act_identity (qubit : ℕ) (state : Assignment → ℂ) :
    Gate.identity.act qubit state = state := by
  funext bits
  have entries : ((0 : Amplitude ℝ).toComplex = 0) ∧ ((1 : Amplitude ℝ).toComplex = 1) := ⟨rfl, rfl⟩
  unfold act mixed identity diagonal
  cases value : bits qubit
  · rw [if_neg Bool.false_ne_true, ← value, Function.update_eq_self]
    simp [entries]
  · rw [if_pos rfl, ← value, Function.update_eq_self]
    simp [entries]

theorem act_after (g f : Gate ℝ) (qubit : ℕ) (state : Assignment → ℂ) :
    (g.after f).act qubit state = g.act qubit (f.act qubit state) := by
  funext bits
  unfold act after mixed
  simp only [Function.update_self, Function.update_idem, Amplitude.toComplex_add,
    Amplitude.toComplex_mul, if_true, Bool.false_eq_true, if_false]
  split <;> ring

/-- Gates on different qubits commute if the one without controls is not on a
control of the other. -/
theorem actWhere_act_comm {controls : List Control} {target : ℕ} (g f : Gate ℝ)
    (targets : target ≠ qubit) (other : ∀ control ∈ controls, control.qubit ≠ qubit)
    (state : Assignment → ℂ) :
    g.actWhere controls target (f.act qubit state) =
      f.act qubit (g.actWhere controls target state) := by
  funext bits
  unfold actWhere
  simp only [act, selected_update other]
  split
  · simp only [Function.update_of_ne targets, Function.update_of_ne targets.symm,
      Function.update_comm targets]
    unfold mixed
    split <;> split <;> ring
  · rfl

theorem act_comm {target : ℕ} (g f : Gate ℝ) (targets : target ≠ qubit)
    (state : Assignment → ℂ) :
    g.act target (f.act qubit state) = f.act qubit (g.act target state) := by
  have free : ∀ control ∈ ([] : List Control), control.qubit ≠ qubit := nofun
  exact actWhere_act_comm g f targets free state

theorem act_fork {depth : ℕ} (g : Gate ℝ) (different : depth ≠ qubit) (c : ℂ)
    (low high : Assignment → ℂ) (bits : Assignment) :
    g.act qubit (fun bits => c * if bits depth then high bits else low bits) bits =
      c * if bits depth then g.act qubit high bits else g.act qubit low bits := by
  unfold act
  simp only [Function.update_of_ne different]
  cases bits depth
  · simp only [Bool.false_eq_true, if_false, mul_comm c, mixed_mul]
  · simp only [if_true, mul_comm c, mixed_mul]

/-! ## Diagonal gates -/

theorem isDiagonal_iff (g : Gate ℝ) :
    g.isDiagonal 0 = true ↔ g.topRight.toComplex = 0 ∧ g.bottomLeft.toComplex = 0 := by
  rw [isDiagonal, Bool.and_eq_true, Amplitude.negligible_zero_iff, Amplitude.negligible_zero_iff]

theorem act_diagonal {g : Gate ℝ} (diagonal : g.isDiagonal 0 = true) (qubit : ℕ)
    (state : Assignment → ℂ) (bits : Assignment) :
    g.act qubit state bits =
      (if bits qubit then g.bottomRight.toComplex else g.topLeft.toComplex) * state bits := by
  obtain ⟨topRight, bottomLeft⟩ := g.isDiagonal_iff.mp diagonal
  unfold act mixed
  cases value : bits qubit
  · rw [if_neg Bool.false_ne_true, if_neg Bool.false_ne_true, topRight, zero_mul, add_zero,
      ← value, Function.update_eq_self]
  · rw [if_pos rfl, if_pos rfl, bottomLeft, zero_mul, zero_add, ← value, Function.update_eq_self]

/-- A diagonal gate commutes with every controlled gate whose target is another qubit. -/
theorem actWhere_diagonal_comm {controls : List Control} {target : ℕ} (g : Gate ℝ) {f : Gate ℝ}
    (diagonal : f.isDiagonal 0 = true) (targets : target ≠ qubit) (state : Assignment → ℂ) :
    g.actWhere controls target (f.act qubit state) =
      f.act qubit (g.actWhere controls target state) := by
  funext bits
  rw [act_diagonal diagonal]
  unfold actWhere
  split
  · unfold act
    rw [← act, ← act, act_diagonal diagonal, act_diagonal diagonal,
      Function.update_of_ne targets.symm, Function.update_of_ne targets.symm, mul_comm _ (state _),
      mul_comm _ (state _), mixed_mul, mul_comm]
  · rw [act_diagonal diagonal]

/-- Diagonal gates commute with diagonal controlled gates. -/
theorem actWhere_comm_of_diagonal {controls : List Control} {target : ℕ} {g f : Gate ℝ}
    (gDiagonal : g.isDiagonal 0 = true) (fDiagonal : f.isDiagonal 0 = true)
    (state : Assignment → ℂ) :
    g.actWhere controls target (f.act qubit state) =
      f.act qubit (g.actWhere controls target state) := by
  funext bits
  rw [act_diagonal fDiagonal]
  unfold actWhere
  split
  · rw [act_diagonal gDiagonal, act_diagonal gDiagonal, act_diagonal fDiagonal]
    ring
  · rw [act_diagonal fDiagonal]

/-! ## Unitary gates -/

def IsUnitary (g : Gate ℝ) : Prop := g.dagger.after g = identity

theorem ext_toComplex (topLeft : g.topLeft.toComplex = f.topLeft.toComplex)
    (topRight : g.topRight.toComplex = f.topRight.toComplex)
    (bottomLeft : g.bottomLeft.toComplex = f.bottomLeft.toComplex)
    (bottomRight : g.bottomRight.toComplex = f.bottomRight.toComplex) : g = f := by
  cases g
  cases f
  simp_all

theorem after_assoc (g f e : Gate ℝ) : (g.after f).after e = g.after (f.after e) := by
  apply ext_toComplex <;> simp only [after, Amplitude.toComplex_add, Amplitude.toComplex_mul] <;> ring

theorem identity_after (g : Gate ℝ) : identity.after g = g := by
  apply ext_toComplex <;> simp [after, identity, diagonal]

theorem dagger_after (g f : Gate ℝ) : (g.after f).dagger = f.dagger.after g.dagger := by
  apply ext_toComplex <;>
    simp only [dagger, after, Amplitude.toComplex_conj, Amplitude.toComplex_add,
      Amplitude.toComplex_mul, map_add, map_mul] <;> ring

theorem IsUnitary.after (gUnitary : g.IsUnitary) (fUnitary : f.IsUnitary) :
    (g.after f).IsUnitary := by
  unfold IsUnitary at *
  calc (g.after f).dagger.after (g.after f)
      = (f.dagger.after g.dagger).after (g.after f) := by rw [dagger_after]
    _ = f.dagger.after ((g.dagger.after g).after f) := by rw [after_assoc, after_assoc]
    _ = identity := by rw [gUnitary, identity_after, fUnitary]

theorem IsUnitary.columns (unitary : g.IsUnitary) :
    Complex.normSq g.topLeft.toComplex + Complex.normSq g.bottomLeft.toComplex = 1 ∧
      Complex.normSq g.topRight.toComplex + Complex.normSq g.bottomRight.toComplex = 1 := by
  have left := congrArg (fun gate : Gate ℝ => gate.topLeft.toComplex) unitary
  have right := congrArg (fun gate : Gate ℝ => gate.bottomRight.toComplex) unitary
  simp only [Gate.after, dagger, identity, diagonal, Amplitude.toComplex_add,
    Amplitude.toComplex_mul, Amplitude.toComplex_conj, Amplitude.toComplex_one,
    ← Complex.normSq_eq_conj_mul_self] at left right
  exact ⟨by exact_mod_cast left, by exact_mod_cast right⟩

theorem unit_of_normSq_one {a : Amplitude ℝ} (modulus : Complex.normSq a.toComplex = 1) :
    a.unit = a := by
  apply Amplitude.unit_of_norm_one
  rw [Complex.norm_def, modulus, Real.sqrt_one]

/-- The product of unitary gates does not change when it is made exactly
diagonal or antidiagonal. -/
theorem IsUnitary.followedBy_eq (gUnitary : g.IsUnitary) (fUnitary : f.IsUnitary) :
    f.followedBy 0 g = g.after f := by
  obtain ⟨left, right⟩ := (gUnitary.after fUnitary).columns
  unfold followedBy
  dsimp only
  split
  · next diag =>
      obtain ⟨topRight, bottomLeft⟩ := (isDiagonal_iff _).mp diag
      rw [bottomLeft, Complex.normSq_zero, add_zero] at left
      rw [topRight, Complex.normSq_zero, zero_add] at right
      rw [unit_of_normSq_one left, unit_of_normSq_one right]
      exact ext_toComplex rfl topRight.symm bottomLeft.symm rfl
  · split
    · next anti =>
        rw [isAntidiagonal, Bool.and_eq_true, Amplitude.negligible_zero_iff,
          Amplitude.negligible_zero_iff] at anti
        obtain ⟨topLeft, bottomRight⟩ := anti
        rw [topLeft, Complex.normSq_zero, zero_add] at left
        rw [bottomRight, Complex.normSq_zero, add_zero] at right
        rw [unit_of_normSq_one left, unit_of_normSq_one right]
        exact ext_toComplex topLeft.symm rfl rfl bottomRight.symm
    · rfl

/-- A unitary gate can be taken back where its controls have their values. -/
theorem IsUnitary.dagger_actWhere {controls : List Control} (unitary : g.IsUnitary)
    (outside : ∀ control ∈ controls, control.qubit ≠ qubit) (state : Assignment → ℂ) :
    g.dagger.actWhere controls qubit (g.actWhere controls qubit state) = state := by
  funext bits
  unfold actWhere
  split
  · next chosen =>
      have inside : g.dagger.act qubit
          (fun bits => if selected controls bits = true then g.act qubit state bits else state bits)
          bits = g.dagger.act qubit (g.act qubit state) bits := by
        unfold act
        simp only [selected_update outside, chosen, if_true]
      rw [inside, ← act_after, unitary, act_identity]
  · rfl

/-- A unitary gate leaves some amplitude where there was some. -/
theorem IsUnitary.actWhere_ne_zero {controls : List Control} (unitary : g.IsUnitary)
    (outside : ∀ control ∈ controls, control.qubit ≠ qubit) (some : state ≠ 0) :
    g.actWhere controls qubit state ≠ 0 := by
  intro none
  have back := unitary.dagger_actWhere outside state
  rw [none] at back
  have zero := g.dagger.actWhere_smul controls qubit 0 0
  rw [zero_smul, zero_smul] at zero
  exact some (back.symm.trans zero)

theorem act_pauliX (qubit : ℕ) (state : Assignment → ℂ) (bits : Assignment) :
    (pauliX : Gate ℝ).act qubit state bits = state (Function.update bits qubit (!bits qubit)) := by
  unfold act mixed
  cases bits qubit <;> simp [pauliX, antidiagonal]

theorem pauliX_isUnitary : (pauliX : Gate ℝ).IsUnitary := by
  apply ext_toComplex <;> simp [after, dagger, identity, diagonal, pauliX, antidiagonal]

theorem toComplex_hadamard :
    (Amplitude.ofReal (Scalar.sqrt (1 / Scalar.two)) : Amplitude ℝ).toComplex =
      (Real.sqrt (1 / 2) : ℂ) := by
  rw [show (Scalar.two : ℝ) = 2 from Nat.cast_ofNat]
  rfl

theorem hadamard_isUnitary : (hadamard : Gate ℝ).IsUnitary := by
  have square : (Real.sqrt (1 / 2) : ℂ) * Real.sqrt (1 / 2) = 1 / 2 := by
    rw [← Complex.ofReal_mul, Real.mul_self_sqrt (by norm_num)]
    norm_num
  apply ext_toComplex <;>
    simp only [after, dagger, identity, diagonal, hadamard, Amplitude.toComplex_add,
      Amplitude.toComplex_mul, Amplitude.toComplex_conj, Amplitude.toComplex_neg,
      Amplitude.toComplex_one, Amplitude.toComplex_zero, toComplex_hadamard, map_neg,
      Complex.conj_ofReal, mul_neg, neg_mul, square] <;> norm_num

theorem diagonal_isUnitary {top bottom : Amplitude ℝ} (topUnit : top.normSq = 1)
    (bottomUnit : bottom.normSq = 1) : (diagonal top bottom).IsUnitary := by
  rw [Amplitude.normSq_eq] at topUnit bottomUnit
  apply ext_toComplex <;>
    simp [after, dagger, identity, diagonal, ← Complex.normSq_eq_conj_mul_self, topUnit, bottomUnit]

theorem phaseS_isUnitary : (phaseS : Gate ℝ).IsUnitary :=
  diagonal_isUnitary (by simp [Amplitude.normSq_eq]) (by norm_num [Amplitude.normSq])

theorem phaseSInverse_isUnitary : (phaseSInverse : Gate ℝ).IsUnitary :=
  diagonal_isUnitary (by simp [Amplitude.normSq_eq]) (by norm_num [Amplitude.normSq])

theorem sqrtX_isUnitary : (sqrtX : Gate ℝ).IsUnitary := by
  have two : (Scalar.two : ℝ) = 2 := Nat.cast_ofNat
  apply ext_toComplex <;> apply Complex.ext <;>
    norm_num [after, dagger, identity, diagonal, sqrtX, two]

theorem sqrtXInverse_isUnitary : (sqrtXInverse : Gate ℝ).IsUnitary := by
  have two : (Scalar.two : ℝ) = 2 := Nat.cast_ofNat
  apply ext_toComplex <;> apply Complex.ext <;>
    norm_num [after, dagger, identity, diagonal, sqrtXInverse, sqrtX, two]

theorem rotateX_isUnitary (angle : ℝ) : (rotateX angle).IsUnitary := by
  have circle : Scalar.cos (angle / Scalar.two) * Scalar.cos (angle / Scalar.two) +
      Scalar.sin (angle / Scalar.two) * Scalar.sin (angle / Scalar.two) = 1 := by
    rw [← sq, ← sq]
    exact Real.cos_sq_add_sin_sq _
  unfold IsUnitary rotateX
  generalize (Scalar.cos (angle / Scalar.two) : ℝ) = c at *
  generalize (Scalar.sin (angle / Scalar.two) : ℝ) = s at *
  apply ext_toComplex <;> apply Complex.ext <;>
    simp [after, dagger, identity, diagonal] <;> linarith

/-- A Hadamard gate makes both values of a clear qubit possible. -/
theorem mixed_hadamard_ne_zero (value : Bool) : (hadamard : Gate ℝ).mixed value 1 0 ≠ 0 := by
  have positive : (Real.sqrt (1 / 2) : ℂ) ≠ 0 :=
    Complex.ofReal_ne_zero.mpr (Real.sqrt_ne_zero'.mpr (by norm_num))
  unfold mixed
  split <;> simpa only [hadamard, toComplex_hadamard, mul_one, mul_zero, add_zero] using positive

theorem isIdentity_iff (g : Gate ℝ) : g.isIdentity 0 = true ↔ g = identity := by
  rw [isIdentity, isScalar, Bool.and_eq_true, Bool.and_eq_true, isDiagonal_iff,
    Amplitude.negligible_zero_iff, Amplitude.negligible_zero_iff, Amplitude.toComplex_sub,
    Amplitude.toComplex_sub, sub_eq_zero, sub_eq_zero]
  constructor
  · rintro ⟨⟨⟨topRight, bottomLeft⟩, scalar⟩, one⟩
    exact ext_toComplex one topRight bottomLeft (scalar.symm.trans one)
  · rintro rfl
    exact ⟨⟨⟨rfl, rfl⟩, rfl⟩, rfl⟩

end Gate

def selectedFrom (controls : List Control) (depth : ℕ) (bits : Assignment) : Bool :=
  controls.all fun control => control.qubit < depth || bits control.qubit == control.value

theorem selectedFrom_zero (controls : List Control) (bits : Assignment) :
    selectedFrom controls 0 bits = selected controls bits := by
  simp [selectedFrom, selected]

theorem selectedFrom_iff (controls : List Control) (depth : ℕ) (bits : Assignment) :
    selectedFrom controls depth bits = true ↔
      ∀ control ∈ controls, depth ≤ control.qubit → bits control.qubit = control.value := by
  simp only [selectedFrom, List.all_eq_true, Bool.or_eq_true, decide_eq_true_eq, beq_iff_eq,
    or_iff_not_imp_left, Nat.not_lt]

theorem selectedFrom_succ {controls : List Control} {depth : ℕ}
    (none : ∀ control ∈ controls, control.qubit ≠ depth) (bits : Assignment) :
    selectedFrom controls depth bits = selectedFrom controls (depth + 1) bits := by
  rw [Bool.eq_iff_iff, selectedFrom_iff, selectedFrom_iff]
  constructor
  · exact fun found control member lower => found control member (by omega)
  · intro found control member lower
    have different := none control member
    exact found control member (by omega)

/-- A control on a level selects the branch with its value. -/
theorem selectedFrom_control {controls : List Control} {control : Control}
    (member : control ∈ controls)
    (unique : ∀ other ∈ controls, other.qubit = control.qubit → other = control)
    (bits : Assignment) :
    selectedFrom controls control.qubit bits =
      (bits control.qubit == control.value && selectedFrom controls (control.qubit + 1) bits) := by
  rw [Bool.eq_iff_iff, Bool.and_eq_true, selectedFrom_iff, selectedFrom_iff, beq_iff_eq]
  constructor
  · exact fun found => ⟨found control member (le_refl _),
      fun other member lower => found other member (by omega)⟩
  · rintro ⟨here, below⟩ other otherMember lower
    by_cases same : other.qubit = control.qubit
    · rw [unique other otherMember same]
      exact here
    · exact below other otherMember (by omega)

end AmplitudeTree
