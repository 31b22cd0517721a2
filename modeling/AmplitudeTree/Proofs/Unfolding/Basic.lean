import AmplitudeTree.Proofs.Scalar

/-!
# Unfoldings

The unfolding of a node is the plain tree below it: nothing is shared, and every subtree without
amplitude is `zero`.  It has an amplitude for every assignment of values to the qubits.

A regular unfolding over `n` qubits reaches a leaf after exactly `n` forks on every path that does
not end in `zero`.  It is canonical if the squared child scales of each fork sum to one and the
first child that is not zero has a positive scale.  Two canonical unfoldings with the same
amplitudes are equal.
-/

namespace AmplitudeTree

abbrev Assignment := ℕ → Bool

/-- A decision tree that shares nothing. -/
inductive Unfolding where
  | zero
  | leaf (scale : ℂ)
  | fork (scale : ℂ) (low high : Unfolding)

namespace Unfolding

def scale : Unfolding → ℂ
  | zero => 0
  | leaf scale => scale
  | fork scale _ _ => scale

def withScale (scale : ℂ) : Unfolding → Unfolding
  | zero => zero
  | leaf _ => leaf scale
  | fork _ low high => fork scale low high

/-- The tree with another factor at the top; no tree is left if that factor is zero. -/
noncomputable def rescale (scale : ℂ) (u : Unfolding) : Unfolding :=
  if scale = 0 then zero else u.withScale scale

/-- The product of an assignment's scales, where the topmost fork decides the qubit `qubit`. -/
noncomputable def amplitude : Unfolding → (qubit : ℕ) → Assignment → ℂ
  | zero, _, _ => 0
  | leaf scale, _, _ => scale
  | fork scale low high, qubit, bits =>
      scale * if bits qubit then high.amplitude (qubit + 1) bits else low.amplitude (qubit + 1) bits

noncomputable def cofactor (value : Bool) : Unfolding → Unfolding
  | fork scale low high =>
      if value then high.rescale (scale * high.scale) else low.rescale (scale * low.scale)
  | _ => zero

def Positive (z : ℂ) : Prop := 0 < z.re ∧ z.im = 0

/-- What the branches of a canonical fork satisfy. -/
structure Balanced (low high : Unfolding) : Prop where
  total : Complex.normSq low.scale + Complex.normSq high.scale = 1
  leading_low : low ≠ zero → Positive low.scale
  leading_high : low = zero → Positive high.scale

/-- The trees whose paths all end in leaves on the last level or in `zero`, canonical if this is
asked for. -/
def Regular (canonical : Prop) : ℕ → Unfolding → Prop
  | _, zero => True
  | 0, leaf scale => scale ≠ 0
  | levels + 1, fork scale low high =>
      scale ≠ 0 ∧ (low ≠ zero ∨ high ≠ zero) ∧
        low.Regular canonical levels ∧ high.Regular canonical levels ∧
        (canonical → Balanced low high)
  | 0, fork _ _ _ => False
  | _ + 1, leaf _ => False

/-- The trees whose paths all end in leaves on the last level or in `zero`,
whatever their scales. -/
def Deep : ℕ → Unfolding → Prop
  | _, zero => True
  | 0, leaf _ => True
  | levels + 1, fork _ low high => low.Deep levels ∧ high.Deep levels
  | 0, fork _ _ _ => False
  | _ + 1, leaf _ => False

section Scales

@[simp]
theorem scale_zero : zero.scale = 0 := rfl

@[simp]
theorem scale_leaf (c : ℂ) : (leaf c).scale = c := rfl

@[simp]
theorem scale_fork (c : ℂ) (low high : Unfolding) : (fork c low high).scale = c := rfl

@[simp]
theorem withScale_zero (c : ℂ) : zero.withScale c = zero := rfl

@[simp]
theorem withScale_eq_zero {c : ℂ} {u : Unfolding} : u.withScale c = zero ↔ u = zero := by
  cases u <;> simp [withScale]

@[simp]
theorem withScale_withScale (c d : ℂ) (u : Unfolding) :
    (u.withScale d).withScale c = u.withScale c := by
  cases u <;> rfl

@[simp]
theorem withScale_scale (u : Unfolding) : u.withScale u.scale = u := by
  cases u <;> rfl

theorem scale_withScale {u : Unfolding} (nonzero : u ≠ zero) (c : ℂ) :
    (u.withScale c).scale = c := by
  cases u with
  | zero => exact absurd rfl nonzero
  | leaf => rfl
  | fork => rfl

@[simp]
theorem rescale_zero (c : ℂ) : zero.rescale c = zero := by
  unfold rescale
  split <;> rfl

@[simp]
theorem rescale_zero_left (u : Unfolding) : u.rescale 0 = zero :=
  if_pos rfl

theorem rescale_of_ne_zero {c : ℂ} (scaled : c ≠ 0) (u : Unfolding) :
    u.rescale c = u.withScale c :=
  if_neg scaled

theorem eq_of_scale_of_withScale {u v : Unfolding} (scales : u.scale = v.scale)
    (shapes : u.withScale 1 = v.withScale 1) : u = v := by
  calc u = (u.withScale 1).withScale u.scale := by rw [withScale_withScale, withScale_scale]
    _ = (v.withScale 1).withScale v.scale := by rw [shapes, scales]
    _ = v := by rw [withScale_withScale, withScale_scale]

end Scales

section Amplitudes

@[simp]
theorem amplitude_zero (qubit : ℕ) (bits : Assignment) : zero.amplitude qubit bits = 0 := rfl

@[simp]
theorem amplitude_leaf (c : ℂ) (qubit : ℕ) (bits : Assignment) :
    (leaf c).amplitude qubit bits = c := rfl

theorem amplitude_fork (c : ℂ) (low high : Unfolding) (qubit : ℕ) (bits : Assignment) :
    (fork c low high).amplitude qubit bits =
      c * if bits qubit then high.amplitude (qubit + 1) bits
        else low.amplitude (qubit + 1) bits := rfl

/-- Another scale at the top multiplies all amplitudes. -/
theorem amplitude_withScale (c : ℂ) (u : Unfolding) (qubit : ℕ) (bits : Assignment) :
    (u.withScale c).amplitude qubit bits = c * (u.withScale 1).amplitude qubit bits := by
  cases u with
  | zero => simp [withScale]
  | leaf => simp [withScale]
  | fork => simp [withScale, amplitude_fork]

theorem amplitude_rescale (c : ℂ) (u : Unfolding) (qubit : ℕ) (bits : Assignment) :
    (u.rescale c).amplitude qubit bits = c * (u.withScale 1).amplitude qubit bits := by
  by_cases empty : c = 0
  · rw [empty, rescale_zero_left, amplitude_zero, zero_mul]
  · rw [rescale_of_ne_zero empty, amplitude_withScale]

/-- All amplitudes have the scale at the top as a factor. -/
theorem amplitude_eq_scale_mul (u : Unfolding) (qubit : ℕ) (bits : Assignment) :
    u.amplitude qubit bits = u.scale * (u.withScale 1).amplitude qubit bits := by
  rw [← amplitude_withScale, withScale_scale]

theorem amplitude_rescale_mul_scale (c : ℂ) (u : Unfolding) (qubit : ℕ) (bits : Assignment) :
    (u.rescale (c * u.scale)).amplitude qubit bits = c * u.amplitude qubit bits := by
  rw [amplitude_rescale, amplitude_eq_scale_mul u, mul_assoc]

/-- The amplitudes depend on the qubits from the topmost one on. -/
theorem amplitude_congr (u : Unfolding) {qubit : ℕ} {bits other : Assignment}
    (same : ∀ q, qubit ≤ q → bits q = other q) :
    u.amplitude qubit bits = u.amplitude qubit other := by
  induction u generalizing qubit with
  | zero => rfl
  | leaf => rfl
  | fork c low high ihLow ihHigh =>
      have below : ∀ q, qubit + 1 ≤ q → bits q = other q := fun q bound => same q (by omega)
      rw [amplitude_fork, amplitude_fork, same qubit (le_refl _), ihLow below, ihHigh below]

theorem amplitude_add (u : Unfolding) (qubit shift : ℕ) (bits : Assignment) :
    u.amplitude (qubit + shift) bits = u.amplitude qubit fun q => bits (q + shift) := by
  induction u generalizing qubit with
  | zero => rfl
  | leaf => rfl
  | fork c low high ihLow ihHigh =>
      rw [amplitude_fork, amplitude_fork, ← ihLow, ← ihHigh, Nat.add_right_comm]

end Amplitudes

section Depth

variable {levels : ℕ} {u : Unfolding}

@[simp]
theorem deep_zero : zero.Deep levels := by
  cases levels <;> trivial

theorem Deep.leaf_of_zero (deep : u.Deep 0) (nonzero : u ≠ zero) : ∃ c, u = leaf c := by
  cases u with
  | zero => exact absurd rfl nonzero
  | leaf c => exact ⟨c, rfl⟩
  | fork => exact deep.elim

/-- A tree that is not zero and has qubits left to decide is a fork. -/
theorem Deep.fork_of_succ (deep : u.Deep (levels + 1)) (nonzero : u ≠ zero) :
    ∃ c low high, u = fork c low high ∧ low.Deep levels ∧ high.Deep levels := by
  cases u with
  | zero => exact absurd rfl nonzero
  | leaf => exact deep.elim
  | fork c low high => exact ⟨c, low, high, rfl, deep⟩

end Depth

section Regularity

variable {canonical : Prop} {levels : ℕ} {u v low high : Unfolding}

@[simp]
theorem regular_zero : zero.Regular canonical levels := by
  cases levels <;> trivial

theorem Regular.leaf_of_zero (regular : u.Regular canonical 0) (nonzero : u ≠ zero) :
    ∃ c, c ≠ 0 ∧ u = leaf c := by
  cases u with
  | zero => exact absurd rfl nonzero
  | leaf c => exact ⟨c, regular, rfl⟩
  | fork => exact regular.elim

theorem Regular.fork_of_succ (regular : u.Regular canonical (levels + 1)) (nonzero : u ≠ zero) :
    ∃ c low high, u = fork c low high ∧ c ≠ 0 ∧ (low ≠ zero ∨ high ≠ zero) ∧
      low.Regular canonical levels ∧ high.Regular canonical levels ∧
      (canonical → Balanced low high) := by
  cases u with
  | zero => exact absurd rfl nonzero
  | leaf => exact regular.elim
  | fork c low high => exact ⟨c, low, high, rfl, regular⟩

theorem Regular.deep (regular : u.Regular canonical levels) : u.Deep levels := by
  induction levels generalizing u with
  | zero =>
      by_cases empty : u = zero
      · exact empty ▸ deep_zero
      · obtain ⟨c, _, rfl⟩ := regular.leaf_of_zero empty
        trivial
  | succ levels ih =>
      by_cases empty : u = zero
      · exact empty ▸ deep_zero
      · obtain ⟨c, low, high, rfl, _, _, lowRegular, highRegular, _⟩ := regular.fork_of_succ empty
        exact ⟨ih lowRegular, ih highRegular⟩

theorem Regular.scale_ne_zero (regular : u.Regular canonical levels) (nonzero : u ≠ zero) :
    u.scale ≠ 0 := by
  cases levels with
  | zero =>
      obtain ⟨c, scaled, rfl⟩ := regular.leaf_of_zero nonzero
      exact scaled
  | succ levels =>
      obtain ⟨c, low, high, rfl, scaled, _⟩ := regular.fork_of_succ nonzero
      exact scaled

theorem Regular.scale_eq_zero_iff (regular : u.Regular canonical levels) :
    u.scale = 0 ↔ u = zero := by
  constructor
  · intro scaled
    by_contra nonzero
    exact regular.scale_ne_zero nonzero scaled
  · rintro rfl
    rfl

theorem Regular.withScale (regular : u.Regular canonical levels) {c : ℂ} (scaled : c ≠ 0) :
    (u.withScale c).Regular canonical levels := by
  cases u with
  | zero => exact regular_zero
  | leaf =>
      cases levels with
      | zero => exact scaled
      | succ => exact regular.elim
  | fork =>
      cases levels with
      | zero => exact regular.elim
      | succ => exact ⟨scaled, regular.2⟩

theorem Regular.rescale (regular : u.Regular canonical levels) (c : ℂ) :
    (u.rescale c).Regular canonical levels := by
  by_cases empty : c = 0
  · rw [empty, rescale_zero_left]
    exact regular_zero
  · rw [rescale_of_ne_zero empty]
    exact regular.withScale empty

theorem Regular.of_canonical (regular : u.Regular True levels) : u.Regular canonical levels := by
  induction u generalizing levels with
  | zero => exact regular_zero
  | leaf => cases levels <;> exact regular
  | fork c low high ihLow ihHigh =>
      cases levels with
      | zero => exact regular
      | succ =>
          obtain ⟨scaled, some, lowRegular, highRegular, balanced⟩ := regular
          exact ⟨scaled, some, ihLow lowRegular, ihHigh highRegular, fun _ => balanced trivial⟩

/-- The number of levels below a tree that is not zero is determined. -/
theorem Regular.levels_unique {other : ℕ} (regular : u.Regular canonical levels)
    (again : u.Regular canonical other) (nonzero : u ≠ zero) : levels = other := by
  induction u generalizing levels other with
  | zero => exact absurd rfl nonzero
  | leaf =>
      cases levels <;> cases other
      · rfl
      · exact again.elim
      · exact regular.elim
      · exact regular.elim
  | fork c low high ihLow ihHigh =>
      cases levels <;> cases other
      · rfl
      · exact regular.elim
      · exact again.elim
      · obtain ⟨_, some, lowRegular, highRegular, _⟩ := regular
        obtain ⟨_, _, lowAgain, highAgain, _⟩ := again
        rcases some with lowSome | highSome
        · rw [ihLow lowRegular lowAgain lowSome]
        · rw [ihHigh highRegular highAgain highSome]

/-- The amplitudes of a regular tree depend on its own qubits only. -/
theorem Regular.amplitude_congr (regular : u.Regular canonical levels) {qubit : ℕ}
    {bits other : Assignment} (same : ∀ q, qubit ≤ q → q < qubit + levels → bits q = other q) :
    u.amplitude qubit bits = u.amplitude qubit other := by
  induction u generalizing levels qubit with
  | zero => rfl
  | leaf => rfl
  | fork c low high ihLow ihHigh =>
      cases levels with
      | zero => exact regular.elim
      | succ levels =>
          obtain ⟨_, _, lowRegular, highRegular, _⟩ := regular
          have below : ∀ q, qubit + 1 ≤ q → q < qubit + 1 + levels → bits q = other q :=
            fun q lower upper => same q (by omega) (by omega)
          rw [amplitude_fork, amplitude_fork, same qubit (le_refl _) (by omega),
            ihLow lowRegular below, ihHigh highRegular below]

/-- A tree that is not zero has an amplitude that is not zero. -/
theorem Regular.exists_amplitude_ne_zero (regular : u.Regular canonical levels)
    (nonzero : u ≠ zero) (qubit : ℕ) : ∃ bits, u.amplitude qubit bits ≠ 0 := by
  induction u generalizing levels qubit with
  | zero => exact absurd rfl nonzero
  | leaf c =>
      cases levels with
      | zero => exact ⟨fun _ => false, regular⟩
      | succ => exact regular.elim
  | fork c low high ihLow ihHigh =>
      cases levels with
      | zero => exact regular.elim
      | succ levels =>
          obtain ⟨scaled, some, lowRegular, highRegular, _⟩ := regular
          have above (bits : Assignment) (value : Bool) (branch : Unfolding) :
              branch.amplitude (qubit + 1) (Function.update bits qubit value) =
                branch.amplitude (qubit + 1) bits :=
            Unfolding.amplitude_congr branch fun q bound =>
              Function.update_of_ne (by omega) _ _
          rcases some with lowSome | highSome
          · obtain ⟨bits, found⟩ := ihLow lowRegular lowSome (qubit + 1)
            refine ⟨Function.update bits qubit false, ?_⟩
            rw [amplitude_fork, Function.update_self, if_neg Bool.false_ne_true, above]
            exact mul_ne_zero scaled found
          · obtain ⟨bits, found⟩ := ihHigh highRegular highSome (qubit + 1)
            refine ⟨Function.update bits qubit true, ?_⟩
            rw [amplitude_fork, Function.update_self, if_pos rfl, above]
            exact mul_ne_zero scaled found

/-- The amplitudes below the two branches of a fork, read off the amplitudes of the fork. -/
theorem amplitude_fork_update (c : ℂ) (low high : Unfolding) (qubit : ℕ) (bits : Assignment)
    (value : Bool) :
    (fork c low high).amplitude qubit (Function.update bits qubit value) =
      c * (if value then high else low).amplitude (qubit + 1) bits := by
  have above (branch : Unfolding) :
      branch.amplitude (qubit + 1) (Function.update bits qubit value) =
        branch.amplitude (qubit + 1) bits :=
    Unfolding.amplitude_congr branch fun q bound => Function.update_of_ne (by omega) _ _
  rw [amplitude_fork, Function.update_self, above, above]
  cases value <;> rfl

theorem Regular.cofactor (regular : u.Regular canonical (levels + 1)) (value : Bool) :
    (u.cofactor value).Regular canonical levels := by
  cases u with
  | zero => exact regular_zero
  | leaf => exact regular.elim
  | fork c low high =>
      obtain ⟨_, _, lowRegular, highRegular, _⟩ := regular
      cases value with
      | false => exact lowRegular.rescale _
      | true => exact highRegular.rescale _

theorem Regular.amplitude_cofactor (regular : u.Regular canonical (levels + 1)) (value : Bool)
    (qubit : ℕ) (bits : Assignment) :
    (u.cofactor value).amplitude (qubit + 1) bits =
      u.amplitude qubit (Function.update bits qubit value) := by
  cases u with
  | zero => rfl
  | leaf => exact regular.elim
  | fork c low high =>
      rw [amplitude_fork_update]
      cases value with
      | false => exact amplitude_rescale_mul_scale c low (qubit + 1) bits
      | true => exact amplitude_rescale_mul_scale c high (qubit + 1) bits

end Regularity

/-! ## States of trees -/

/-- A regular tree over the qubits from `qubit` up to `stop` whose amplitudes
are given by `state`. -/
structure Carries (u : Unfolding) (canonical : Prop) (qubit stop : ℕ) (state : Assignment → ℂ) :
    Prop where
  le : qubit ≤ stop
  regular : u.Regular canonical (stop - qubit)
  amplitude_eq : ∀ bits, u.amplitude qubit bits = state bits

section Carries

variable {canonical : Prop} {qubit stop : ℕ} {u : Unfolding} {state state' : Assignment → ℂ}

theorem Carries.congr (carries : u.Carries canonical qubit stop state)
    (same : ∀ bits, state bits = state' bits) : u.Carries canonical qubit stop state' :=
  ⟨carries.le, carries.regular, fun bits => (carries.amplitude_eq bits).trans (same bits)⟩

theorem carries_zero (le : qubit ≤ stop) (zero : ∀ bits, state bits = 0) :
    Unfolding.zero.Carries canonical qubit stop state :=
  ⟨le, regular_zero, fun bits => (zero bits).symm⟩

end Carries

end Unfolding

end AmplitudeTree
