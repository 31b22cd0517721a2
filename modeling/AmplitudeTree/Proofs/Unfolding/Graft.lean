import AmplitudeTree.Proofs.Unfolding.Canonical

/-!
# Grafts

Grafting puts one tree below all leaves of another, so its amplitudes are the products of theirs.
Conversely a tree all of whose subtrees on a level have one shape is a graft.  A canonical tree with
the amplitudes of a product is a graft of canonical trees of the factors, since it is determined by
its amplitudes.
-/

namespace AmplitudeTree.Unfolding

variable {canonical : Prop} {levels rest qubit : ℕ} {u v below : Unfolding}

/-! ## Grafting -/

/-- The tree with another one below each of its leaves, whose scales go into the latter. -/
def graft : Unfolding → Unfolding → Unfolding
  | zero, _ => zero
  | leaf c, below => below.withScale c
  | fork c low high, below => fork c (low.graft below) (high.graft below)

@[simp]
theorem graft_eq_zero (nonzero : below ≠ zero) : u.graft below = zero ↔ u = zero := by
  cases u <;> simp [graft, nonzero]

@[simp]
theorem scale_graft (nonzero : below ≠ zero) (u : Unfolding) : (u.graft below).scale = u.scale := by
  cases u with
  | zero => rfl
  | leaf c => exact scale_withScale nonzero c
  | fork => rfl

theorem graft_withScale (c : ℂ) (u below : Unfolding) :
    (u.withScale c).graft below = (u.graft below).withScale c := by
  cases u with
  | zero => rfl
  | leaf => exact (withScale_withScale _ _ _).symm
  | fork => rfl

theorem Regular.graft (regular : u.Regular canonical levels)
    (belowRegular : below.Regular canonical rest) (nonzero : below ≠ zero) :
    (u.graft below).Regular canonical (levels + rest) := by
  induction u generalizing levels with
  | zero => exact regular_zero
  | leaf c =>
      cases levels with
      | zero =>
          rw [Nat.zero_add]
          exact belowRegular.withScale regular
      | succ => exact regular.elim
  | fork c low high ihLow ihHigh =>
      cases levels with
      | zero => exact regular.elim
      | succ levels =>
          obtain ⟨scaled, some, lowRegular, highRegular, balanced⟩ := regular
          rw [Nat.add_right_comm]
          refine ⟨scaled, ?_, ihLow lowRegular, ihHigh highRegular, fun asked => ?_⟩
          · rwa [ne_eq, ne_eq, graft_eq_zero nonzero, graft_eq_zero nonzero]
          · obtain ⟨total, leadingLow, leadingHigh⟩ := balanced asked
            refine ⟨?_, ?_, ?_⟩
            · rwa [scale_graft nonzero, scale_graft nonzero]
            · rwa [scale_graft nonzero, ne_eq, graft_eq_zero nonzero]
            · rwa [scale_graft nonzero, graft_eq_zero nonzero]

/-- The amplitudes of a graft are the products of those of the two trees. -/
theorem Regular.amplitude_graft (regular : u.Regular canonical levels) (below : Unfolding)
    (qubit : ℕ) (bits : Assignment) :
    (u.graft below).amplitude qubit bits =
      u.amplitude qubit bits * (below.withScale 1).amplitude (qubit + levels) bits := by
  induction u generalizing levels qubit with
  | zero => exact (zero_mul _).symm
  | leaf c =>
      cases levels with
      | zero => exact amplitude_withScale c below qubit bits
      | succ => exact regular.elim
  | fork c low high ihLow ihHigh =>
      cases levels with
      | zero => exact regular.elim
      | succ levels =>
          obtain ⟨_, _, lowRegular, highRegular, _⟩ := regular
          have shift : qubit + (levels + 1) = qubit + 1 + levels := by omega
          rw [Unfolding.graft, amplitude_fork, amplitude_fork, ihLow lowRegular,
            ihHigh highRegular, shift]
          split <;> ring

/-! ## Taking grafts apart -/

/-- The topmost levels of a tree, where the scales of the subtrees below become leaves. -/
def head : ℕ → Unfolding → Unfolding
  | _, zero => zero
  | 0, u => leaf u.scale
  | _ + 1, leaf c => leaf c
  | levels + 1, fork c low high => fork c (low.head levels) (high.head levels)

def Bottom : ℕ → Unfolding → Unfolding → Prop
  | 0, u, v => v = u ∧ u ≠ zero
  | levels + 1, fork _ low high, v => low.Bottom levels v ∨ high.Bottom levels v
  | _ + 1, _, _ => False

@[simp]
theorem head_zero (levels : ℕ) : zero.head levels = zero := by
  cases levels <;> rfl

theorem head_eq_zero : u.head levels = zero ↔ u = zero := by
  cases levels <;> cases u <;> simp [head]

theorem scale_head (levels : ℕ) (u : Unfolding) : (u.head levels).scale = u.scale := by
  cases levels <;> cases u <;> rfl

theorem not_bottom_zero : ¬zero.Bottom levels v := by
  cases levels with
  | zero => exact fun found => found.2 rfl
  | succ => exact False.elim

theorem Regular.head (regular : u.Regular canonical (levels + rest)) :
    (u.head levels).Regular canonical levels := by
  induction levels generalizing u with
  | zero =>
      by_cases empty : u = zero
      · rw [empty]
        exact regular_zero
      · have scaled := regular.scale_ne_zero empty
        cases u with
        | zero => exact absurd rfl empty
        | leaf => exact scaled
        | fork => exact scaled
  | succ levels ih =>
      by_cases empty : u = zero
      · rw [empty]
        exact regular_zero
      · rw [Nat.add_right_comm] at regular
        obtain ⟨c, low, high, rfl, scaled, some, lowRegular, highRegular, balanced⟩ :=
          regular.fork_of_succ empty
        refine ⟨scaled, ?_, ih lowRegular, ih highRegular, fun asked => ?_⟩
        · rwa [ne_eq, ne_eq, head_eq_zero, head_eq_zero]
        · obtain ⟨total, leadingLow, leadingHigh⟩ := balanced asked
          refine ⟨?_, ?_, ?_⟩
          · rwa [scale_head, scale_head]
          · rwa [scale_head, ne_eq, head_eq_zero]
          · rwa [scale_head, head_eq_zero]

/-- The subtrees on a level of a regular tree are regular over the qubits after it. -/
theorem Regular.bottom (regular : u.Regular canonical (levels + rest)) (found : u.Bottom levels v) :
    v.Regular canonical rest := by
  induction levels generalizing u with
  | zero =>
      obtain ⟨rfl, _⟩ := found
      rwa [Nat.zero_add] at regular
  | succ levels ih =>
      rw [Nat.add_right_comm] at regular
      cases u with
      | zero => exact found.elim
      | leaf => exact found.elim
      | fork c low high =>
          obtain ⟨_, _, lowRegular, highRegular, _⟩ := regular
          rcases found with found | found
          · exact ih lowRegular found
          · exact ih highRegular found

/-- A tree whose subtrees on a level all have one shape is a graft. -/
theorem Regular.eq_graft_head (regular : u.Regular canonical (levels + rest))
    (same : ∀ v, u.Bottom levels v → v.withScale 1 = below.withScale 1) :
    u = (u.head levels).graft below := by
  induction levels generalizing u with
  | zero =>
      by_cases empty : u = zero
      · rw [empty]
        rfl
      · have shape := same u ⟨rfl, empty⟩
        have head : u.head 0 = leaf u.scale := by
          cases u with
          | zero => exact absurd rfl empty
          | leaf => rfl
          | fork => rfl
        rw [head, Unfolding.graft, ← withScale_withScale u.scale 1 below, ← shape,
          withScale_withScale, withScale_scale]
  | succ levels ih =>
      by_cases empty : u = zero
      · rw [empty]
        rfl
      · rw [Nat.add_right_comm] at regular
        obtain ⟨c, low, high, rfl, _, _, lowRegular, highRegular, _⟩ := regular.fork_of_succ empty
        rw [Unfolding.head, Unfolding.graft, ← ih lowRegular fun v found => same v (.inl found),
          ← ih highRegular fun v found => same v (.inr found)]

theorem Regular.bottom_graft (regular : u.Regular canonical levels)
    (found : (u.graft below).Bottom levels v) : v.withScale 1 = below.withScale 1 := by
  induction u generalizing levels with
  | zero => exact absurd found not_bottom_zero
  | leaf c =>
      cases levels with
      | zero =>
          obtain ⟨rfl, _⟩ := found
          exact withScale_withScale 1 c below
      | succ => exact regular.elim
  | fork c low high ihLow ihHigh =>
      cases levels with
      | zero => exact regular.elim
      | succ levels =>
          obtain ⟨_, _, lowRegular, highRegular, _⟩ := regular
          rcases found with found | found
          · exact ihLow lowRegular found
          · exact ihHigh highRegular found

theorem Regular.head_graft (regular : u.Regular canonical levels) (nonzero : below ≠ zero) :
    (u.graft below).head levels = u := by
  induction u generalizing levels with
  | zero => exact head_zero levels
  | leaf c =>
      cases levels with
      | zero =>
          cases below with
          | zero => exact absurd rfl nonzero
          | leaf => rfl
          | fork => rfl
      | succ => exact regular.elim
  | fork c low high ihLow ihHigh =>
      cases levels with
      | zero => exact regular.elim
      | succ levels =>
          obtain ⟨_, _, lowRegular, highRegular, _⟩ := regular
          rw [Unfolding.graft, Unfolding.head, ihLow lowRegular, ihHigh highRegular]

/-- A tree that is not zero has subtrees on each of its levels. -/
theorem Regular.exists_bottom (regular : u.Regular canonical (levels + rest)) (nonzero : u ≠ zero) :
    ∃ v, u.Bottom levels v := by
  induction levels generalizing u with
  | zero => exact ⟨u, rfl, nonzero⟩
  | succ levels ih =>
      rw [Nat.add_right_comm] at regular
      obtain ⟨c, low, high, rfl, _, some, lowRegular, highRegular, _⟩ :=
        regular.fork_of_succ nonzero
      rcases some with lowNonzero | highNonzero
      · obtain ⟨v, found⟩ := ih lowRegular lowNonzero
        exact ⟨v, .inl found⟩
      · obtain ⟨v, found⟩ := ih highRegular highNonzero
        exact ⟨v, .inr found⟩

/-! ## Products -/

/-- A canonical tree with the amplitudes of a product grafts one canonical factor on the other. -/
theorem Regular.eq_graft_of_product {stop : ℕ} {state state' : Assignment → ℂ}
    (regular : u.Regular True (stop - qubit)) (nonzero : u ≠ zero)
    (first : v.Carries True qubit (qubit + levels) state)
    (second : below.Carries True (qubit + levels) stop state')
    (product : ∀ bits, u.amplitude qubit bits = state bits * state' bits) :
    below ≠ zero ∧ u = (v.withScale (v.scale * below.scale)).graft below := by
  have le := second.le
  have total : stop - qubit = levels + (stop - (qubit + levels)) := by omega
  have amplitudes (bits : Assignment) : u.amplitude qubit bits =
      v.amplitude qubit bits * below.amplitude (qubit + levels) bits := by
    rw [product, first.amplitude_eq, second.amplitude_eq]
  have belowNonzero : below ≠ zero := by
    rintro rfl
    obtain ⟨bits, found⟩ := regular.exists_amplitude_ne_zero nonzero qubit
    exact found ((amplitudes bits).trans (mul_zero _))
  have vNonzero : v ≠ zero := by
    rintro rfl
    obtain ⟨bits, found⟩ := regular.exists_amplitude_ne_zero nonzero qubit
    exact found ((amplitudes bits).trans (zero_mul _))
  have vRegular : v.Regular True levels := by
    have known := first.regular
    rwa [Nat.add_sub_cancel_left] at known
  have scaled : v.scale * below.scale ≠ 0 :=
    mul_ne_zero (vRegular.scale_ne_zero vNonzero) (second.regular.scale_ne_zero belowNonzero)
  have grafted := (vRegular.withScale scaled).graft second.regular belowNonzero
  rw [← total] at grafted
  have same (bits : Assignment) : u.amplitude qubit bits =
      ((v.withScale (v.scale * below.scale)).graft below).amplitude qubit bits := by
    rw [amplitudes, (vRegular.withScale scaled).amplitude_graft, amplitude_withScale,
      amplitude_eq_scale_mul v, amplitude_eq_scale_mul below]
    ring
  exact ⟨belowNonzero, regular.unique grafted same⟩

end AmplitudeTree.Unfolding
