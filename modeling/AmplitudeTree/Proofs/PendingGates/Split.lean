import AmplitudeTree.Proofs.PendingGates
import AmplitudeTree.Proofs.Tree.Hosts

/-!
# Waiting gates on a product

On a product of a state of a range and a state of the other qubits, the gates that wait on the range
act on the first factor and the others on the second one.  Unitary gates can be taken back, so they
neither make a product nor destroy one.
-/

namespace AmplitudeTree

open Assignment

namespace Assignment

variable {start length qubit : ℕ}

/-- Where a qubit stood before a range was dropped. -/
def raised (start length qubit : ℕ) : ℕ := if qubit < start then qubit else qubit + length

theorem dropped_apply (bits : Assignment) (qubit : ℕ) :
    dropped start length bits qubit = bits (raised start length qubit) := by
  unfold dropped raised
  split <;> rfl

theorem raised_injective (start length : ℕ) : Function.Injective (raised start length) := by
  intro q q' same
  unfold raised at same
  split at same <;> split at same <;> omega

theorem taken_update_shift (inside : qubit < length) (bits : Assignment) (value : Bool) :
    taken start length (Function.update bits (start + qubit) value) =
      Function.update (taken start length bits) qubit value := by
  funext q
  by_cases same : q = qubit
  · subst same
    rw [taken, if_pos inside, Function.update_self, Function.update_self]
  · have other : start + q ≠ start + qubit := by omega
    rw [Function.update_of_ne same, taken, taken, Function.update_of_ne other]

theorem dropped_update_shift (inside : qubit < length) (bits : Assignment) (value : Bool) :
    dropped start length (Function.update bits (start + qubit) value) =
      dropped start length bits := by
  funext q
  rw [dropped_apply, dropped_apply, Function.update_of_ne]
  unfold raised
  split <;> omega

theorem taken_update_raised (bits : Assignment) (qubit : ℕ) (value : Bool) :
    taken start length (Function.update bits (raised start length qubit) value) =
      taken start length bits := by
  funext q
  unfold taken
  split
  · next inside =>
      rw [Function.update_of_ne]
      unfold raised
      split <;> omega
  · rfl

theorem dropped_update_raised (bits : Assignment) (qubit : ℕ) (value : Bool) :
    dropped start length (Function.update bits (raised start length qubit) value) =
      Function.update (dropped start length bits) qubit value := by
  funext q
  by_cases same : q = qubit
  · subst same
    rw [dropped_apply, Function.update_self, Function.update_self]
  · rw [dropped_apply, Function.update_of_ne same, dropped_apply,
      Function.update_of_ne fun found => same (raised_injective start length found)]

theorem range_split {width : ℕ} (le : start + length ≤ width) :
    List.range width = (List.range start).map (raised start length) ++
      (List.range length).map (start + ·) ++
        ((List.range (width - (start + length))).map (start + ·)).map (raised start length) := by
  have below : (List.range start).map (raised start length) = List.range start := by
    conv_rhs => rw [← List.map_id (List.range start)]
    exact List.map_congr_left fun q member => if_pos (List.mem_range.mp member)
  have above : ((List.range (width - (start + length))).map (start + ·)).map
      (raised start length) = (List.range (width - (start + length))).map (start + length + ·) := by
    rw [List.map_map]
    refine List.map_congr_left fun q _ => ?_
    change raised start length (start + q) = _
    rw [raised, if_neg (by omega)]
    omega
  rw [below, above, ← List.range_add, ← List.range_add, Nat.add_sub_cancel' le]

theorem range_dropped {width : ℕ} (le : start + length ≤ width) :
    List.range (width - length) =
      List.range start ++ (List.range (width - (start + length))).map (start + ·) := by
  rw [← List.range_add]
  congr 1
  omega

theorem filled_raised (start length : ℕ) (index : BasisIndex) (bits : Assignment) (qubit : ℕ) :
    filled start length index bits (raised start length qubit) = bits qubit := by
  have moved := congrFun (dropped_filled start length index bits) qubit
  rwa [dropped_apply] at moved

theorem filled_update (start length : ℕ) (index : BasisIndex) (bits : Assignment) (qubit : ℕ)
    (value : Bool) :
    filled start length index (Function.update bits qubit value) =
      Function.update (filled start length index bits) (raised start length qubit) value := by
  funext q
  by_cases same : q = raised start length qubit
  · rw [same, filled_raised, Function.update_self, Function.update_self]
  · rw [Function.update_of_ne same]
    by_cases below : q < start
    · have other : q ≠ qubit := by
        rintro rfl
        exact same (if_pos below).symm
      rw [filled_of_lt below, filled_of_lt below, Function.update_of_ne other]
    · by_cases inside : q < start + length
      · rw [filled, filled, if_neg below, if_neg below, if_pos inside, if_pos inside]
      · have other : q - length ≠ qubit := by
          rintro rfl
          unfold raised at same
          split at same <;> omega
        rw [filled, filled, if_neg below, if_neg below, if_neg inside, if_neg inside,
          Function.update_of_ne other]

end Assignment

noncomputable def productState (start length : ℕ) (first second : Assignment → ℂ)
    (bits : Assignment) : ℂ :=
  first (taken start length bits) * second (dropped start length bits)

namespace Gate

variable {start length qubit : ℕ} {first second : Assignment → ℂ}

theorem act_shift (gate : Gate ℝ) (inside : qubit < length) :
    gate.act (start + qubit) (productState start length first second) =
      productState start length (gate.act qubit first) second := by
  funext bits
  have here : taken start length bits qubit = bits (start + qubit) := if_pos inside
  unfold productState act
  dsimp only
  rw [taken_update_shift inside, taken_update_shift inside, dropped_update_shift inside,
    dropped_update_shift inside, mixed_mul, here]

theorem act_raised (gate : Gate ℝ) (qubit : ℕ) :
    gate.act (raised start length qubit) (productState start length first second) =
      productState start length first (gate.act qubit second) := by
  funext bits
  unfold productState act
  dsimp only
  rw [taken_update_raised, taken_update_raised, dropped_update_raised, dropped_update_raised,
    dropped_apply]
  simp only [mul_comm (first _), mixed_mul]

end Gate

namespace PendingGates

variable {p part rest : PendingGates ℝ} {start length : ℕ} {qubits : List ℕ}
  {first second : Assignment → ℂ}

theorem actOn_append (p : PendingGates ℝ) (qubits more : List ℕ) (state : Assignment → ℂ) :
    p.actOn (qubits ++ more) state = p.actOn more (p.actOn qubits state) :=
  List.foldl_append

theorem actOn_shift (same : ∀ q ∈ qubits, q < length ∧ p.get? (start + q) = part.get? q) :
    p.actOn (qubits.map (start + ·)) (productState start length first second) =
      productState start length (part.actOn qubits first) second := by
  induction qubits generalizing first with
  | nil => rfl
  | cons qubit qubits ih =>
      obtain ⟨inside, slots⟩ := same qubit List.mem_cons_self
      have here : p.actAt (start + qubit) (productState start length first second) =
          productState start length (part.actAt qubit first) second := by
        unfold actAt
        rw [slots]
        split
        · exact Gate.act_shift _ inside
        · rfl
      rw [List.map_cons, actOn_cons, actOn_cons, here,
        ih fun q member => same q (List.mem_cons_of_mem _ member)]

theorem actOn_raised (same : ∀ q ∈ qubits, p.get? (raised start length q) = rest.get? q) :
    p.actOn (qubits.map (raised start length)) (productState start length first second) =
      productState start length first (rest.actOn qubits second) := by
  induction qubits generalizing second with
  | nil => rfl
  | cons qubit qubits ih =>
      have here : p.actAt (raised start length qubit) (productState start length first second) =
          productState start length first (rest.actAt qubit second) := by
        unfold actAt
        rw [same qubit List.mem_cons_self]
        split
        · exact Gate.act_raised _ _
        · rfl
      rw [List.map_cons, actOn_cons, actOn_cons, here,
        ih fun q member => same q (List.mem_cons_of_mem _ member)]

/-! ## Splitting the slots -/

theorem width_insert (le : start ≤ p.width) (other : PendingGates ℝ) :
    (p.insert start other).width = p.width + other.width := by
  unfold insert width at *
  simp only [List.length_take, List.length_drop, List.length_append]
  omega

theorem width_split (le : start + length ≤ p.width) :
    (p.split start length).1.width = length ∧ (p.split start length).2.width = p.width - length := by
  unfold split width at *
  simp only [List.length_take, List.length_drop, List.length_append]
  omega

theorem get?_split_part {q : ℕ} (inside : q < length) :
    (p.split start length).1.get? q = p.get? (start + q) := by
  unfold split get?
  rw [List.getElem?_take_of_lt inside, List.getElem?_drop]

theorem get?_split_rest (le : start + length ≤ p.width) (q : ℕ) :
    (p.split start length).2.get? q = p.get? (raised start length q) := by
  have taken : (p.slots.take start).length = start := by
    rw [List.length_take]
    exact min_eq_left ((Nat.le_add_right start length).trans le)
  unfold split get? raised
  split
  · next below =>
      rw [List.getElem?_append_left (below.trans_eq taken.symm), List.getElem?_take_of_lt below]
  · next above =>
      rw [List.getElem?_append_right (taken.trans_le (not_lt.mp above)), taken, List.getElem?_drop,
        show start + length + (q - start) = q + length by omega]

/-- The gates that wait on a product act on its factors. -/
theorem act_product (le : start + length ≤ p.width) (first second : Assignment → ℂ) :
    p.act (productState start length first second) =
      productState start length ((p.split start length).1.act first)
        ((p.split start length).2.act second) := by
  obtain ⟨partWidth, restWidth⟩ := width_split le
  have outside (q : ℕ) : p.get? (raised start length q) = (p.split start length).2.get? q :=
    (get?_split_rest le q).symm
  rw [act, range_split le, actOn_append, actOn_append, actOn_raised fun q _ => outside q,
    actOn_shift fun q member =>
      ⟨List.mem_range.mp member, (get?_split_part (List.mem_range.mp member)).symm⟩,
    actOn_raised fun q _ => outside q, ← actOn_append, ← range_dropped le, act, act, partWidth,
    restWidth]

/-- Gates that wait outside a range act on what is left when the range has known values. -/
theorem actOn_filled (same : ∀ q ∈ qubits, p.get? (raised start length q) = rest.get? q)
    (index : BasisIndex) (state : Assignment → ℂ) :
    (fun bits => p.actOn (qubits.map (raised start length)) state (filled start length index bits)) =
      rest.actOn qubits fun bits => state (filled start length index bits) := by
  induction qubits generalizing state with
  | nil => rfl
  | cons qubit qubits ih =>
      have here : (fun bits => p.actAt (raised start length qubit) state
          (filled start length index bits)) =
            rest.actAt qubit fun bits => state (filled start length index bits) := by
        unfold actAt
        rw [same qubit List.mem_cons_self]
        cases rest.get? qubit with
        | none => rfl
        | some gate =>
            funext bits
            unfold Gate.act
            dsimp only
            rw [filled_raised, filled_update, filled_update]
      rw [List.map_cons, actOn_cons, actOn_cons, ← here,
        ih fun q member => same q (List.mem_cons_of_mem _ member)]

/-- If no gate waits on a range with known values, the others act on what is left. -/
theorem act_filled (le : start + length ≤ p.width)
    (free : ∀ q < length, p.get? (start + q) = none) (index : BasisIndex)
    (state : Assignment → ℂ) :
    (fun bits => p.act state (filled start length index bits)) =
      (p.split start length).2.act fun bits => state (filled start length index bits) := by
  have outside (q : ℕ) : p.get? (raised start length q) = (p.split start length).2.get? q :=
    (get?_split_rest le q).symm
  have inside : ∀ q ∈ (List.range length).map (start + ·), p.get? q = none := by
    intro q member
    obtain ⟨place, below, rfl⟩ := List.mem_map.mp member
    exact free place (List.mem_range.mp below)
  unfold act
  rw [range_split le, actOn_append, actOn_append, actOn_of_free inside,
    actOn_filled fun q _ => outside q, actOn_filled fun q _ => outside q, ← actOn_append,
    ← range_dropped le, (width_split le).2]

/-! ## Taking gates back -/

/-- The waiting gates that take back those of `p`, if these are unitary. -/
noncomputable def inverse (p : PendingGates ℝ) : PendingGates ℝ :=
  ⟨p.slots.map (Option.map Gate.dagger)⟩

theorem width_inverse (p : PendingGates ℝ) : p.inverse.width = p.width := List.length_map _

theorem get?_inverse (p : PendingGates ℝ) (qubit : ℕ) :
    p.inverse.get? qubit = (p.get? qubit).map Gate.dagger := by
  unfold inverse get?
  rw [List.getElem?_map]
  cases p.slots[qubit]? <;> rfl

theorem Unitary.inverse_actAt (unitary : p.Unitary) (qubit : ℕ) (state : Assignment → ℂ) :
    p.inverse.actAt qubit (p.actAt qubit state) = state := by
  cases waits : p.get? qubit with
  | none => rw [actAt_of_none waits, actAt_of_none (by rw [get?_inverse, waits]; rfl)]
  | some gate =>
      rw [actAt_of_some waits, actAt_of_some (by rw [get?_inverse, waits]; rfl), ← Gate.act_after,
        unitary qubit gate waits, Gate.act_identity]

theorem Unitary.inverse_actOn (unitary : p.Unitary) (distinct : qubits.Nodup)
    (state : Assignment → ℂ) : p.inverse.actOn qubits (p.actOn qubits state) = state := by
  induction qubits generalizing state with
  | nil => rfl
  | cons qubit qubits ih =>
      obtain ⟨fresh, distinct⟩ := List.nodup_cons.mp distinct
      have first (state : Assignment → ℂ) :
          p.inverse.actAt qubit (p.actOn qubits state) =
            p.actOn qubits (p.inverse.actAt qubit state) := by
        refine actOn_comm (p.inverse.actAt qubit) (fun q member state => ?_) state
        refine actAt_comm ?_ state
        rintro rfl
        exact fresh member
      rw [actOn_cons, actOn_cons, first, unitary.inverse_actAt, ih distinct]

theorem Unitary.inverse_act (unitary : p.Unitary) (state : Assignment → ℂ) :
    p.inverse.act (p.act state) = state := by
  rw [act, act, width_inverse]
  exact unitary.inverse_actOn List.nodup_range state

theorem act_smul (p : PendingGates ℝ) (c : ℂ) (state : Assignment → ℂ) :
    p.act (c • state) = c • p.act state := by
  refine (p.actOn_comm (c • ·) (fun q _ state => ?_) state).symm
  unfold actAt
  split
  · next gate _ => exact (gate.act_smul q c state).symm
  · rfl

/-- Unitary gates that wait leave some amplitude just in case there was some. -/
theorem Unitary.act_ne_zero_iff {state : Assignment → ℂ} (unitary : p.Unitary) :
    p.act state ≠ 0 ↔ state ≠ 0 := by
  refine not_congr ⟨fun none => ?_, fun none => by rw [none]; exact p.actOn_zero _⟩
  rw [← unitary.inverse_act state, none]
  exact p.inverse.actOn_zero _

/-! ## Slots with unitary gates -/

theorem unitary_iff : p.Unitary ↔ ∀ gate, some gate ∈ p.slots → gate.IsUnitary := by
  constructor
  · intro unitary gate member
    obtain ⟨qubit, slot⟩ := List.mem_iff_getElem?.mp member
    exact unitary qubit gate (by rw [get?, slot, Option.join_some])
  · intro unitary qubit gate waits
    rw [get?, Option.join_eq_some_iff] at waits
    exact unitary gate (List.mem_of_getElem? waits)

theorem Unitary.insert (unitary : p.Unitary) (partUnitary : part.Unitary) (start : ℕ) :
    (p.insert start part).Unitary := by
  rw [unitary_iff] at *
  intro gate member
  unfold PendingGates.insert at member
  rcases List.mem_append.mp member with member | member
  · rcases List.mem_append.mp member with member | member
    · exact unitary gate (List.mem_of_mem_take member)
    · exact partUnitary gate member
  · exact unitary gate (List.mem_of_mem_drop member)

theorem Unitary.split (unitary : p.Unitary) (start length : ℕ) :
    (p.split start length).1.Unitary ∧ (p.split start length).2.Unitary := by
  rw [unitary_iff] at *
  rw [unitary_iff]
  refine ⟨fun gate member => unitary gate (List.mem_of_mem_drop (List.mem_of_mem_take member)), ?_⟩
  intro gate member
  rcases List.mem_append.mp member with member | member
  · exact unitary gate (List.mem_of_mem_take member)
  · exact unitary gate (List.mem_of_mem_drop member)

end PendingGates

end AmplitudeTree
