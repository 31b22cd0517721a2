import AmplitudeTree.PendingGates
import AmplitudeTree.Proofs.Tree.Apply

/-!
# Waiting gates on states

Gates that wait on different qubits commute, so the state after all waiting gates does not depend on
their order.  A gate that joins those waiting on its qubit acts after all of them.
-/

namespace AmplitudeTree.PendingGates

variable {p p' : PendingGates ℝ} {qubit : ℕ} {qubits : List ℕ} {state : Assignment → ℂ}

noncomputable def actAt (p : PendingGates ℝ) (qubit : ℕ) (state : Assignment → ℂ) :
    Assignment → ℂ :=
  match p.get? qubit with
  | some gate => gate.act qubit state
  | none => state

noncomputable def actOn (p : PendingGates ℝ) (qubits : List ℕ) (state : Assignment → ℂ) :
    Assignment → ℂ :=
  qubits.foldl (fun state qubit => p.actAt qubit state) state

noncomputable def act (p : PendingGates ℝ) (state : Assignment → ℂ) : Assignment → ℂ :=
  p.actOn (List.range p.width) state

/-! ## Slots -/

theorem get?_of_width_le (outside : p.width ≤ qubit) : p.get? qubit = none := by
  unfold get?
  rw [List.getElem?_eq_none outside]
  rfl

@[simp]
theorem width_erase (p : PendingGates ℝ) (qubit : ℕ) : (p.erase qubit).width = p.width :=
  List.length_set

theorem get?_erase_self (p : PendingGates ℝ) (qubit : ℕ) : (p.erase qubit).get? qubit = none := by
  unfold get? erase
  rw [List.getElem?_set_self']
  cases p.slots[qubit]? <;> rfl

theorem get?_erase_of_ne {other : ℕ} (different : other ≠ qubit) :
    (p.erase qubit).get? other = p.get? other := by
  unfold get? erase
  rw [List.getElem?_set_ne different.symm]

theorem get?_clear (p : PendingGates ℝ) (qubit : ℕ) : p.clear.get? qubit = none := by
  unfold get? clear
  rw [List.getElem?_map]
  cases p.slots[qubit]? <;> rfl

theorem get?_empty (width qubit : ℕ) : (empty width : PendingGates ℝ).get? qubit = none := by
  unfold get? empty
  rw [List.getElem?_replicate]
  split <;> rfl

/-! ## Order -/

theorem actAt_of_none (free : p.get? qubit = none) (state : Assignment → ℂ) :
    p.actAt qubit state = state := by
  rw [actAt, free]

theorem actAt_of_some {gate : Gate ℝ} (waiting : p.get? qubit = some gate)
    (state : Assignment → ℂ) : p.actAt qubit state = gate.act qubit state := by
  rw [actAt, waiting]

theorem actAt_comm {other : ℕ} (different : qubit ≠ other) (state : Assignment → ℂ) :
    p.actAt qubit (p'.actAt other state) = p'.actAt other (p.actAt qubit state) := by
  unfold actAt
  split <;> split
  · exact Gate.act_comm _ _ different state
  · rfl
  · rfl
  · rfl

theorem actOn_cons (p : PendingGates ℝ) (qubit : ℕ) (qubits : List ℕ) (state : Assignment → ℂ) :
    p.actOn (qubit :: qubits) state = p.actOn qubits (p.actAt qubit state) := rfl

theorem actOn_congr (same : ∀ q ∈ qubits, p.get? q = p'.get? q) (state : Assignment → ℂ) :
    p.actOn qubits state = p'.actOn qubits state := by
  induction qubits generalizing state with
  | nil => rfl
  | cons qubit qubits ih =>
      have here : p.actAt qubit state = p'.actAt qubit state := by
        unfold actAt
        rw [same qubit List.mem_cons_self]
      rw [actOn_cons, actOn_cons, here, ih fun q member => same q (List.mem_cons_of_mem _ member)]

theorem actOn_of_free (free : ∀ q ∈ qubits, p.get? q = none) (state : Assignment → ℂ) :
    p.actOn qubits state = state := by
  induction qubits generalizing state with
  | nil => rfl
  | cons qubit qubits ih =>
      rw [actOn_cons, actAt_of_none (free qubit List.mem_cons_self),
        ih fun q member => free q (List.mem_cons_of_mem _ member)]

theorem actOn_zero (p : PendingGates ℝ) (qubits : List ℕ) : p.actOn qubits 0 = 0 := by
  induction qubits with
  | nil => rfl
  | cons qubit qubits ih =>
      have here : p.actAt qubit 0 = 0 := by
        unfold actAt
        split
        · exact funext fun bits => Gate.mixed_zero _ _
        · rfl
      rw [actOn_cons, here, ih]

/-- What commutes with every waiting gate commutes with all of them. -/
theorem actOn_comm (step : (Assignment → ℂ) → Assignment → ℂ)
    (comm : ∀ q ∈ qubits, ∀ state, step (p.actAt q state) = p.actAt q (step state))
    (state : Assignment → ℂ) : step (p.actOn qubits state) = p.actOn qubits (step state) := by
  induction qubits generalizing state with
  | nil => rfl
  | cons qubit qubits ih =>
      rw [actOn_cons, actOn_cons, ih fun q member => comm q (List.mem_cons_of_mem _ member),
        comm qubit List.mem_cons_self]

/-- The gate that waits on a qubit may act first. -/
theorem actOn_erase (member : qubit ∈ qubits) (distinct : qubits.Nodup)
    (state : Assignment → ℂ) :
    p.actOn qubits state = (p.erase qubit).actOn qubits (p.actAt qubit state) := by
  induction qubits generalizing state with
  | nil => cases member
  | cons first rest ih =>
      obtain ⟨fresh, distinct⟩ := List.nodup_cons.mp distinct
      rw [actOn_cons, actOn_cons]
      by_cases same : first = qubit
      · subst same
        rw [actAt_of_none (get?_erase_self p first)]
        refine actOn_congr (fun q later => (get?_erase_of_ne ?_).symm) _
        rintro rfl
        exact fresh later
      · have member := (List.mem_cons.mp member).resolve_left fun found => same found.symm
        have here : (p.erase qubit).actAt first (p.actAt qubit state) =
            p.actAt first (p.actAt qubit state) := by
          rw [actAt, get?_erase_of_ne same]
          rfl
        rw [ih member distinct, here, actAt_comm same]

theorem act_erase (p : PendingGates ℝ) (qubit : ℕ) (state : Assignment → ℂ) :
    p.act state = (p.erase qubit).act (p.actAt qubit state) := by
  unfold act
  rw [width_erase]
  by_cases inside : qubit < p.width
  · exact actOn_erase (List.mem_range.mpr inside) List.nodup_range state
  · have free := get?_of_width_le (not_lt.mp inside)
    rw [actAt_of_none free]
    refine actOn_congr (fun q member => (get?_erase_of_ne fun found => ?_).symm) state
    rw [found] at member
    exact inside (List.mem_range.mp member)

theorem act_clear (p : PendingGates ℝ) (state : Assignment → ℂ) : p.clear.act state = state :=
  actOn_of_free (fun q _ => get?_clear p q) state

theorem act_empty (width : ℕ) (state : Assignment → ℂ) :
    (empty width : PendingGates ℝ).act state = state :=
  actOn_of_free (fun q _ => get?_empty width q) state

/-! ## Unitary gates -/

def Unitary (p : PendingGates ℝ) : Prop := ∀ qubit gate, p.get? qubit = some gate → gate.IsUnitary

theorem Unitary.erase (unitary : p.Unitary) (qubit : ℕ) : (p.erase qubit).Unitary := by
  intro other gate waiting
  by_cases same : other = qubit
  · rw [same, get?_erase_self] at waiting
    cases waiting
  · rw [get?_erase_of_ne same] at waiting
    exact unitary other gate waiting

theorem unitary_clear (p : PendingGates ℝ) : p.clear.Unitary := by
  intro qubit gate waiting
  rw [get?_clear] at waiting
  cases waiting

theorem unitary_empty (width : ℕ) : (empty width : PendingGates ℝ).Unitary := by
  intro qubit gate waiting
  rw [get?_empty] at waiting
  cases waiting

@[simp]
theorem width_append (p : PendingGates ℝ) (qubit : ℕ) (gate : Gate ℝ) (threshold : ℝ) :
    (p.append qubit gate threshold).width = p.width :=
  List.length_set

theorem get?_append_self (inside : qubit < p.width) (gate : Gate ℝ) (threshold : ℝ) :
    let product := (p.get? qubit).elim gate fun waiting => waiting.followedBy threshold gate
    (p.append qubit gate threshold).get? qubit =
      if product.isIdentity threshold then none else some product := by
  intro product
  have slot (entry : Option (Gate ℝ)) :
      (⟨p.slots.set qubit entry⟩ : PendingGates ℝ).get? qubit = entry := by
    unfold get?
    rw [List.getElem?_set_self inside]
    rfl
  rw [append, slot]
  cases waits : p.get? qubit <;> simp [product, waits]

theorem get?_append_of_ne {other : ℕ} (different : other ≠ qubit) (gate : Gate ℝ) (threshold : ℝ) :
    (p.append qubit gate threshold).get? other = p.get? other := by
  unfold get? append
  rw [List.getElem?_set_ne different.symm]

theorem actAt_append (joined : ∀ waiting, p.get? qubit = some waiting → waiting.IsUnitary)
    {gate : Gate ℝ} (gateUnitary : gate.IsUnitary) (inside : qubit < p.width)
    (state : Assignment → ℂ) :
    (p.append qubit gate 0).actAt qubit state = gate.act qubit (p.actAt qubit state) := by
  have acts (product : Gate ℝ)
      (found : (p.append qubit gate 0).get? qubit =
        if product.isIdentity 0 then none else some product) :
      (p.append qubit gate 0).actAt qubit state = product.act qubit state := by
    split at found
    · next one =>
        rw [actAt_of_none found, (Gate.isIdentity_iff _).mp one, Gate.act_identity]
    · exact actAt_of_some found state
  have appended := get?_append_self inside gate 0
  cases waits : p.get? qubit with
  | none =>
      rw [waits] at appended
      rw [acts gate appended, actAt_of_none waits]
  | some waiting =>
      rw [waits, Option.elim_some, gateUnitary.followedBy_eq (joined waiting waits)] at appended
      rw [acts _ appended, actAt_of_some waits, Gate.act_after]

theorem Unitary.append (unitary : p.Unitary) {gate : Gate ℝ} (gateUnitary : gate.IsUnitary)
    (inside : qubit < p.width) : (p.append qubit gate 0).Unitary := by
  intro other product waiting
  by_cases same : other = qubit
  · subst same
    rw [get?_append_self inside] at waiting
    split at waiting
    · cases waiting
    · cases waiting
      cases waits : p.get? other with
      | none => exact gateUnitary
      | some earlier =>
          rw [Option.elim_some, gateUnitary.followedBy_eq (unitary other earlier waits)]
          exact gateUnitary.after (unitary other earlier waits)
  · rw [get?_append_of_ne same] at waiting
    exact unitary other product waiting

/-- A unitary gate that joins none or a unitary one acts after the gates that wait. -/
theorem act_append (joined : ∀ waiting, p.get? qubit = some waiting → waiting.IsUnitary)
    {gate : Gate ℝ} (gateUnitary : gate.IsUnitary) (inside : qubit < p.width)
    (state : Assignment → ℂ) :
    (p.append qubit gate 0).act state = gate.act qubit (p.act state) := by
  have others : (p.append qubit gate 0).erase qubit = p.erase qubit := by
    unfold PendingGates.append PendingGates.erase
    rw [List.set_set]
  rw [act_erase _ qubit, others, actAt_append joined gateUnitary inside, act_erase p qubit]
  refine (actOn_comm (gate.act qubit) (fun q _ state => ?_) _).symm
  by_cases same : q = qubit
  · rw [same, actAt_of_none (get?_erase_self p qubit), actAt_of_none (get?_erase_self p qubit)]
  · unfold actAt
    split
    · exact Gate.act_comm _ _ (Ne.symm same) state
    · rfl

/-- A controlled gate commutes with the waiting gates if only diagonal ones wait on its controls,
and on its target none, or a diagonal one if it is diagonal itself. -/
theorem act_actWhere_comm {controls : List Control} {target : ℕ} {gate : Gate ℝ}
    (onControls : ∀ control ∈ controls, ∀ waiting, p.get? control.qubit = some waiting →
      waiting.isDiagonal 0 = true)
    (onTarget : ∀ waiting, p.get? target = some waiting →
      gate.isDiagonal 0 = true ∧ waiting.isDiagonal 0 = true)
    (state : Assignment → ℂ) :
    p.act (gate.actWhere controls target state) = gate.actWhere controls target (p.act state) := by
  refine (actOn_comm (gate.actWhere controls target) (fun q _ state => ?_) state).symm
  unfold actAt
  split
  · next waiting waits =>
      by_cases same : target = q
      · subst same
        obtain ⟨gateDiagonal, diagonal⟩ := onTarget waiting waits
        exact Gate.actWhere_comm_of_diagonal gateDiagonal diagonal state
      · by_cases control : ∃ control ∈ controls, control.qubit = q
        · obtain ⟨control, member, rfl⟩ := control
          exact Gate.actWhere_diagonal_comm gate (onControls control member waiting waits) same state
        · exact Gate.actWhere_act_comm gate waiting same
            (fun c member found => control ⟨c, member, found⟩) state
  · rfl

end AmplitudeTree.PendingGates
