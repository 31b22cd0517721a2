import AmplitudeTree.StateVector.Arithmetic
import Mathlib.Algebra.Order.Group.Int

/-!
# Two's complement

A sum of two numbers in two's complement overflows just in case no number of the same length
expresses it.  With a carry that is added to one summand first, the test goes by the sign of this
summand with the carry.  It is wrong where the carry changes that sign, at the greatest number, and
there it is always wrong.
-/

namespace AmplitudeTree.StateVector

variable {length n a b : ℕ}

def signed (length value : ℕ) : ℤ := (value : ℤ).bmod (2 ^ length)

def Inexpressible (length : ℕ) (sum : ℤ) : Prop :=
  sum < -(2 ^ (length - 1) : ℕ) ∨ (2 ^ (length - 1) : ℕ) ≤ sum

theorem testBit_highest (below : a < 2 ^ (n + 1)) : a.testBit n = decide (2 ^ n ≤ a) := by
  by_cases high : 2 ^ n ≤ a
  · rw [decide_eq_true high, Nat.testBit_of_two_pow_le_and_two_pow_add_one_gt high below]
  · rw [decide_eq_false high, Nat.testBit_lt_two_pow (Nat.not_le.mp high)]

theorem signed_eq (below : a < 2 ^ (n + 1)) :
    signed (n + 1) a = if a < 2 ^ n then (a : ℤ) else a - (2 * 2 ^ n : ℕ) := by
  have reduced : (a : ℤ) % (2 ^ (n + 1) : ℕ) = a :=
    Int.emod_eq_of_lt (Int.natCast_nonneg _) (Int.ofNat_lt.mpr below)
  rw [signed, Int.bmod_def, reduced, Nat.pow_succ']
  refine if_congr ?_ rfl rfl
  omega

/-- The test for overflow is exact for two summands. -/
theorem overflows_iff (nonempty : length ≠ 0) (below : a < 2 ^ length) (below' : b < 2 ^ length) :
    overflows length a b ((a + b) % 2 ^ length) = true ↔
      Inexpressible length (signed length a + signed length b) := by
  obtain ⟨n, rfl⟩ := Nat.exists_eq_add_one_of_ne_zero nonempty
  have sum := Nat.mod_lt (a + b) (Nat.two_pow_pos (n + 1))
  rw [Inexpressible, signed_eq below, signed_eq below', overflows, Nat.add_sub_cancel,
    testBit_highest below, testBit_highest below', testBit_highest sum, Nat.add_mod_eq_ite,
    Nat.mod_eq_of_lt below, Nat.mod_eq_of_lt below']
  rw [Nat.pow_succ'] at below below' ⊢
  simp only [Bool.and_eq_true, beq_iff_eq, bne_iff_ne, ne_eq, decide_eq_decide]
  generalize 2 ^ n = half at *
  split <;> split <;> split <;> omega

/-- The test for overflow with a carry is exact, except for the greatest number, for which it is
always wrong. -/
theorem overflows_carry_iff (nonempty : length ≠ 0) (below : a < 2 ^ length)
    (below' : b < 2 ^ length) (set : Bool) :
    overflows length a ((b + set.toNat) % 2 ^ length) ((a + b + set.toNat) % 2 ^ length) = true ↔
      Xor (Inexpressible length (signed length a + signed length b + set.toNat))
        (set = true ∧ b + 1 = 2 ^ (length - 1)) := by
  -- the test sees two summands, of which the second one is `b` with the carry
  have carried := Nat.mod_lt (b + set.toNat) (Nat.two_pow_pos length)
  rw [Nat.add_assoc, ← Nat.add_mod_mod a (b + set.toNat), overflows_iff nonempty below carried,
    xor_iff_iff_not]
  obtain ⟨n, rfl⟩ := Nat.exists_eq_add_one_of_ne_zero nonempty
  rw [Inexpressible, Inexpressible, signed_eq carried, signed_eq below, signed_eq below',
    Nat.add_sub_cancel]
  cases set with
  | false => simp [Nat.mod_eq_of_lt below']
  | true =>
      rw [Bool.toNat_true, eq_self_iff_true, true_and]
      rw [Nat.pow_succ'] at *
      generalize 2 ^ n = half at *
      have wraps : (b + 1) % (2 * half) = if b + 1 = 2 * half then 0 else b + 1 := by
        split
        · next whole => rw [whole, Nat.mod_self]
        · next less => exact Nat.mod_eq_of_lt (by omega)
      rw [wraps]
      split <;> split <;> split <;> omega

/-- The test for overflow of a difference is exact, except for the least number, for which it is
always wrong. -/
theorem overflows_complement_iff (nonempty : length ≠ 0) (below : a < 2 ^ length)
    (below' : b < 2 ^ length) :
    overflows length a ((2 ^ length - b) % 2 ^ length)
        ((a + (2 ^ length - b) % 2 ^ length) % 2 ^ length) = true ↔
      Xor (Inexpressible length (signed length a - signed length b)) (b = 2 ^ (length - 1)) := by
  have complement := Nat.mod_lt (2 ^ length - b) (Nat.two_pow_pos length)
  rw [overflows_iff nonempty below complement, xor_iff_iff_not]
  obtain ⟨n, rfl⟩ := Nat.exists_eq_add_one_of_ne_zero nonempty
  rw [Inexpressible, Inexpressible, signed_eq complement, signed_eq below, signed_eq below',
    Nat.add_sub_cancel]
  rw [Nat.pow_succ'] at *
  generalize 2 ^ n = half at *
  have reduced : (2 * half - b) % (2 * half) = if b = 0 then 0 else 2 * half - b := by
    split
    · next zero => rw [zero, Nat.sub_zero, Nat.mod_self]
    · next some => exact Nat.mod_eq_of_lt (by omega)
  rw [reduced]
  split <;> split <;> split <;> omega

/-- A number that is taken away from a sum leads out of the expressible numbers if adding it did. -/
theorem inexpressible_sub_iff (nonempty : length ≠ 0) (below : a < 2 ^ length)
    (below' : b < 2 ^ length) :
    Inexpressible length (signed length ((a + b) % 2 ^ length) - signed length b) ↔
      Inexpressible length (signed length a + signed length b) := by
  have sum := Nat.mod_lt (a + b) (Nat.two_pow_pos length)
  obtain ⟨n, rfl⟩ := Nat.exists_eq_add_one_of_ne_zero nonempty
  rw [Inexpressible, Inexpressible, signed_eq sum, signed_eq below, signed_eq below',
    Nat.add_sub_cancel, Nat.add_mod_eq_ite, Nat.mod_eq_of_lt below, Nat.mod_eq_of_lt below']
  rw [Nat.pow_succ'] at *
  generalize 2 ^ n = half at *
  split <;> split <;> split <;> split <;> omega

end AmplitudeTree.StateVector
