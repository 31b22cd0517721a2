import AmplitudeTree.Proofs.Register.Basic

/-!
# Gates on registers

A gate on a register either waits on its qubit or, if it has controls, reaches the tree once the
gates that do not commute with it have been settled.  Either way the state is that after the gate.
-/

namespace AmplitudeTree.Register

open AmplitudeTree.Action

/-! ## Conditions -/

section Conditions

variable {R : Type} {reg : Register R} {controls : List ℕ} {target : ℕ}

theorem checkQubit_eq_ok {qubit : ℕ} : reg.checkQubit qubit = .ok () ↔ qubit < reg.width := by
  unfold checkQubit
  split <;> simp_all

theorem checkControls_eq_ok :
    reg.checkControls target controls = .ok () ↔
      ∀ control ∈ controls, control < reg.width ∧ control ≠ target := by
  induction controls with
  | nil => simp [checkControls]
  | cons control rest ih =>
      rw [List.forall_mem_cons, ← ih, checkControls]
      by_cases inside : control < reg.width
      · rw [checkQubit_eq_ok.mpr inside]
        by_cases same : control = target
        · subst same
          simp only [beq_self_eq_true, if_true, ne_eq, not_true_eq_false, and_false, false_and,
            iff_false]
          exact nofun
        · simp only [beq_eq_false_iff_ne.mpr same, ne_eq, same, inside, not_false_eq_true,
            and_self, true_and]
          rfl
      · simp only [inside, false_and, iff_false, checkQubit, if_false]
        exact nofun

theorem pairwise_mergeSort (list : List ℕ) : list.mergeSort.Pairwise (· ≤ ·) :=
  (List.pairwise_mergeSort (fun a b c first second => decide_eq_true
      ((of_decide_eq_true first).trans (of_decide_eq_true second)))
    (fun a b => by simpa using Nat.le_total a b) list).imp of_decide_eq_true

theorem pairwise_lt_of_firstRepeated {list : List ℕ} (ordered : list.Pairwise (· ≤ ·))
    (single : firstRepeated list = none) : list.Pairwise (· < ·) := by
  induction list with
  | nil => exact List.Pairwise.nil
  | cons first rest ih =>
      obtain ⟨lower, ordered⟩ := List.pairwise_cons.mp ordered
      cases rest with
      | nil => exact List.pairwise_singleton _ _
      | cons second rest =>
          rw [firstRepeated] at single
          split at single
          · cases single
          · next different =>
              have later := ih ordered single
              have below : first < second :=
                lt_of_le_of_ne (lower second List.mem_cons_self) (by simpa using different)
              refine List.pairwise_cons.mpr ⟨fun entry member => ?_, later⟩
              rcases List.mem_cons.mp member with rfl | member
              · exact below
              · exact below.trans ((List.pairwise_cons.mp later).1 entry member)

end Conditions

variable {reg left : Register ℝ} {controls : List ℕ} {sorted : List Control} {value : Bool}
  {gate : Gate ℝ} {target : ℕ}

/-- An accepted gate: its qubits lie in the register, and its controls come back
in ascending order. -/
structure Accepted (reg : Register ℝ) (controls : List ℕ) (value : Bool) (target : ℕ)
    (sorted : List Control) : Prop where
  admissible : Tree.Admissible sorted target reg.width
  inside : ∀ control ∈ controls, control < reg.width ∧ control ≠ target
  selected : ∀ bits, selected sorted bits = selected (asControls controls value) bits

theorem accepted_of_checkGate (passes : reg.checkGate controls value target = .ok sorted) :
    Accepted reg controls value target sorted := by
  unfold checkGate at passes
  cases onTarget : reg.checkQubit target with
  | error e =>
      rw [onTarget] at passes
      cases passes
  | ok _ =>
      rw [onTarget] at passes
      cases onControls : reg.checkControls target controls with
      | error e =>
          rw [onControls] at passes
          cases passes
      | ok _ =>
          rw [onControls] at passes
          have inside := checkControls_eq_ok.mp onControls
          cases single : firstRepeated controls.mergeSort with
          | some qubit =>
              simp only [single] at passes
              cases passes
          | none =>
              simp only [single] at passes
              cases passes
              have ascending := pairwise_lt_of_firstRepeated (pairwise_mergeSort controls) single
              refine ⟨⟨⟨?_, ?_⟩, checkQubit_eq_ok.mp onTarget, ?_⟩, inside, fun bits => ?_⟩
              · exact List.pairwise_map.mpr ascending
              · simp only [List.mem_map, List.mem_mergeSort]
                rintro _ ⟨qubit, member, rfl⟩
                exact ⟨Nat.zero_le _, (inside qubit member).1⟩
              · simp only [List.mem_map, List.mem_mergeSort]
                rintro _ ⟨qubit, member, rfl⟩
                exact (inside qubit member).2
              · rw [← asControls, selected_asControls, selected_asControls]
                exact (List.mergeSort_perm controls _).all_eq

theorem checkGate_singleton {control : ℕ} (inside : control < reg.width)
    (below : target < reg.width) (different : control ≠ target) (value : Bool) :
    reg.checkGate [control] value target = .ok [⟨control, value⟩] := by
  rw [checkGate, checkQubit_eq_ok.mpr below, checkControls_eq_ok.mpr (by simp [inside, different])]
  simp [bind, Except.bind, firstRepeated, pure, Except.pure]

/-! ## Single-qubit gates -/

noncomputable def waiting (reg : Register ℝ) (gate : Gate ℝ) (target : ℕ) : Register ℝ :=
  { reg with pending := reg.pending.append target gate reg.threshold }

theorem runOn_apply (reg : Register ℝ) (gate : Gate ℝ) (target : ℕ) :
    (apply gate target).runOn reg =
      if target < reg.width then (.ok (), reg.waiting gate target)
      else (.error (.qubitOutOfRange target reg.width), reg) := by
  rw [apply, runOn_bind, runOn_check, checkQubit]
  by_cases inside : target < reg.width
  · rw [if_pos inside, if_pos inside]
    rfl
  · rw [if_neg inside, if_neg inside]

theorem Sound.waiting (sound : reg.Sound) (gate : Gate ℝ) (target : ℕ) :
    (reg.waiting gate target).Sound where
  tree := sound.tree
  slots := (PendingGates.width_append _ _ _ _).trans sound.slots
  exact := sound.exact
  admitted := sound.admitted

/-- A unitary gate acts on the state if none or a unitary one waits on its target. -/
theorem Sound.state_waiting (sound : reg.Sound)
    (joined : ∀ waiting, reg.pending.get? target = some waiting → waiting.IsUnitary)
    (gateUnitary : gate.IsUnitary) (inside : target < reg.width) :
    (reg.waiting gate target).state = gate.act target reg.state := by
  unfold Register.waiting state
  dsimp only
  rw [sound.threshold_eq]
  exact PendingGates.act_append joined gateUnitary (inside.trans_eq sound.slots.symm) _

/-- A unitary gate that joins unitary gates acts on the state. -/
theorem Sound.waiting_state (sound : reg.Sound) (unitary : reg.pending.Unitary)
    (gateUnitary : gate.IsUnitary) (inside : target < reg.width) :
    (reg.waiting gate target).pending.Unitary ∧
      (reg.waiting gate target).state = gate.act target reg.state := by
  refine ⟨?_, sound.state_waiting (unitary target) gateUnitary inside⟩
  unfold Register.waiting
  dsimp only
  rw [sound.threshold_eq]
  exact unitary.append gateUnitary (inside.trans_eq sound.slots.symm)

/-! ## Controlled gates -/

/-- Only diagonal gates wait on the qubits of a controlled gate, and none on its target unless the
gate is diagonal. -/
noncomputable def settledFor (reg : Register ℝ) (gate : Gate ℝ) (sorted : List Control)
    (target : ℕ) : Register ℝ :=
  let reg := sorted.foldl (fun reg control => reg.settleUnlessDiagonal control.qubit) reg
  if gate.isDiagonal reg.threshold then reg.settleUnlessDiagonal target else reg.settle target

noncomputable def applied (reg : Register ℝ) (gate : Gate ℝ) (sorted : List Control)
    (target : ℕ) : Register ℝ :=
  { reg with tree := reg.tree.apply gate sorted target }

theorem runOn_applyWhere (reg : Register ℝ) (controls : List ℕ) (value : Bool) (gate : Gate ℝ)
    (target : ℕ) :
    (applyWhere controls value gate target).runOn reg =
      if controls.isEmpty then (apply gate target).runOn reg
      else match reg.checkGate controls value target with
        | .ok sorted =>
            (.ok (), ((reg.settledFor gate sorted target).applied gate sorted target).afterChange)
        | .error e => (.error e, reg) := by
  unfold applyWhere
  split
  · rfl
  · rw [runOn_bind, runOn_query]
    cases reg.checkGate controls value target <;> rfl

theorem Sound.settledFor (sound : reg.Sound) (gate : Gate ℝ) (sorted : List Control) (target : ℕ) :
    Settles reg (reg.settledFor gate sorted target) ∧
      (∀ control ∈ sorted, ∀ waits,
        (reg.settledFor gate sorted target).pending.get? control.qubit = some waits →
          waits.isDiagonal 0 = true) ∧
      ∀ waits, (reg.settledFor gate sorted target).pending.get? target = some waits →
        gate.isDiagonal 0 = true ∧ waits.isDiagonal 0 = true := by
  have steps (reg : Register ℝ) (control : Control) (sound : reg.Sound) :=
    sound.settles_settleUnlessDiagonal control.qubit
  have settled := Sound.settles_foldl steps sorted sound
  have onControls := Sound.foldl_each
    (fun control reg => ∀ waits, reg.pending.get? control.qubit = some waits →
      waits.isDiagonal 0 = true) steps
    (fun reg control sound waits found => by
      rw [← sound.threshold_eq]
      exact isDiagonal_of_settleUnlessDiagonal found)
    (fun control reg result settles diagonal waits found => by
      rcases settles.waiting control.qubit with same | free
      · exact diagonal waits (same.symm.trans found)
      · rw [free] at found
        cases found)
    sorted sound
  unfold Register.settledFor
  generalize sorted.foldl _ reg = middle at settled onControls ⊢
  have exact := settled.sound.threshold_eq
  have kept {last : Register ℝ} (settles : Settles middle last) (control : Control)
      (member : control ∈ sorted) (waits : Gate ℝ)
      (found : last.pending.get? control.qubit = some waits) : waits.isDiagonal 0 = true := by
    rcases settles.waiting control.qubit with same | free
    · exact onControls control member waits (same.symm.trans found)
    · rw [free] at found
      cases found
  dsimp only
  split
  · next diagonal =>
      have last := settled.sound.settles_settleUnlessDiagonal target
      refine ⟨settled.trans last, kept last, fun waits found => ⟨exact ▸ diagonal, ?_⟩⟩
      rw [← exact]
      exact isDiagonal_of_settleUnlessDiagonal found
  · have last := settled.sound.settles_settle target
    refine ⟨settled.trans last, kept last, fun waits found => ?_⟩
    rw [get?_settle_self] at found
    cases found

/-- A gate on the tree acts on the state if it commutes with the gates that wait. -/
theorem Sound.applied (sound : reg.Sound) (gate : Gate ℝ)
    (admissible : Tree.Admissible sorted target reg.width) :
    (reg.applied gate sorted target).Sound ∧ (reg.applied gate sorted target).width = reg.width ∧
      (reg.applied gate sorted target).state =
        reg.pending.act (gate.actWhere sorted target reg.tree.state) := by
  obtain ⟨applied, acts⟩ := sound.tree.apply gate admissible
  exact ⟨sound.withTree applied rfl, rfl, congrArg reg.pending.act acts⟩

/-- What a gate makes of a register. -/
structure Acts (reg : Register ℝ) (controls : List Control) (gate : Gate ℝ) (target : ℕ)
    (result : Register ℝ) : Prop where
  sound : result.Sound
  width : result.width = reg.width
  config : result.config = reg.config
  unitary : reg.pending.Unitary → result.pending.Unitary
  state : result.state = gate.actWhere controls target reg.state

theorem Sound.acts_applied (sound : reg.Sound)
    (accepted : Accepted reg controls value target sorted) :
    Acts reg (asControls controls value) gate target
      ((reg.settledFor gate sorted target).applied gate sorted target).afterChange := by
  obtain ⟨settles, onControls, onTarget⟩ := sound.settledFor gate sorted target
  generalize reg.settledFor gate sorted target = settled at settles onControls onTarget ⊢
  obtain ⟨appliedSound, width, acts⟩ := settles.sound.applied gate
    (settles.width ▸ accepted.admissible)
  have after := appliedSound.settles_afterChange
  have same : gate.actWhere sorted target reg.state =
      gate.actWhere (asControls controls value) target reg.state := by
    funext bits
    rw [Gate.actWhere, Gate.actWhere, accepted.selected]
  exact
    { sound := after.sound
      width := after.width.trans (width.trans settles.width)
      config := after.config.trans settles.config
      unitary := fun unitary => after.unitary (settles.unitary unitary)
      state := by
        rw [after.state, acts, PendingGates.act_actWhere_comm onControls onTarget, ← same,
          ← settles.state]
        rfl }

/-- An accepted gate acts on the state, unless it waits and joins a gate that is not unitary. -/
theorem Sound.acts_applyWhere (sound : reg.Sound) (gateUnitary : gate.IsUnitary)
    (joined : controls = [] → ∀ waiting, reg.pending.get? target = some waiting →
      waiting.IsUnitary)
    (accepted : (applyWhere controls value gate target).runOn reg = (.ok (), left)) :
    Acts reg (asControls controls value) gate target left ∧ target < reg.width ∧
      ∀ control ∈ controls, control < reg.width ∧ control ≠ target := by
  rw [runOn_applyWhere] at accepted
  split at accepted
  · next none =>
      rw [List.isEmpty_iff] at none
      subst none
      rw [runOn_apply] at accepted
      split at accepted
      · next inside =>
          cases accepted
          have stays (unitary : reg.pending.Unitary) :=
            (sound.waiting_state unitary gateUnitary inside).1
          have acts := sound.state_waiting (joined rfl) gateUnitary inside
          exact ⟨⟨sound.waiting gate target, rfl, rfl, stays, acts⟩, inside, nofun⟩
      · cases accepted
  · split at accepted
    · next sorted passes =>
        cases accepted
        have accepted := accepted_of_checkGate passes
        exact ⟨sound.acts_applied accepted, accepted.admissible.below, accepted.inside⟩
    · cases accepted

theorem keeps_apply (gate : Gate ℝ) (target : ℕ) : Keeps (apply gate target) := by
  refine (Keeps.check _).bind fun _ => Keeps.modify fun reg sound => ?_
  exact ⟨sound.waiting gate target, rfl, rfl, rfl⟩

theorem keeps_applyWhere (controls : List ℕ) (value : Bool) (gate : Gate ℝ) (target : ℕ) :
    Keeps (applyWhere controls value gate target) := by
  intro reg sound
  rw [runOn_applyWhere]
  split
  · exact keeps_apply gate target reg sound
  · split
    · next sorted passes =>
        obtain ⟨settles, -⟩ := sound.settledFor gate sorted target
        obtain ⟨applied, width, -⟩ := settles.sound.applied gate
          (settles.width ▸ (accepted_of_checkGate passes).admissible)
        exact (settles.toRetains.trans ⟨applied, width, rfl, rfl⟩).trans
          applied.settles_afterChange.toRetains
    · exact sound.retains_refl

end AmplitudeTree.Register
