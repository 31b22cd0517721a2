import AmplitudeTree.Proofs.Register.Separable

/-!
# Composed registers

Putting the qubits of one register into another one gives the product of the two states, whatever
gates wait on either of them.  Allocated qubits are those of a register that reads 0.
-/

namespace AmplitudeTree

open Assignment

/-- Slots that are put in are split off again. -/
theorem PendingGates.split_insert {p : PendingGates ℝ} {start : ℕ} (le : start ≤ p.width)
    (other : PendingGates ℝ) : (p.insert start other).split start other.width = (other, p) := by
  have before : (p.slots.take start).length = start := by
    rw [List.length_take]
    exact min_eq_left le
  have within : (p.slots.take start ++ other.slots).length = start + other.width := by
    rw [List.length_append, before, width]
  unfold split insert
  dsimp only
  congr 2
  · rw [List.append_assoc, List.drop_left' before]
    exact List.take_left' rfl
  · rw [List.drop_left' within, List.append_assoc, List.take_left' before, List.take_append_drop]

namespace Register

open AmplitudeTree.Action

variable {reg other left : Register ℝ} {start length : ℕ}

/-! ## States -/

/-- The register with another one put in falls into the two. -/
theorem Sound.parts_inserted (sound : reg.Sound) (otherSound : other.Sound)
    (le : start ≤ reg.width) :
    (reg.inserted other.tree other.pending start).Parts ⟨start, other.width⟩ other reg := by
  have inserted := sound.inserted otherSound.tree otherSound.slots le
  obtain ⟨-, width, product⟩ := sound.tree.insert otherSound.tree le
  have slots : start ≤ reg.pending.width := le.trans_eq sound.slots.symm
  have split := PendingGates.split_insert slots other.pending
  rw [otherSound.slots] at split
  have room : start + other.width ≤ (reg.pending.insert start other.pending).width := by
    rw [show (reg.pending.insert start other.pending).width = _ from inserted.slots, show
      (reg.inserted other.tree other.pending start).width = _ from width]
    exact Nat.add_le_add_right le _
  refine ⟨otherSound, sound, rfl, ?_, ?_⟩
  · rw [show (reg.inserted other.tree other.pending start).width = _ from width]
    exact (Nat.add_sub_cancel _ _).symm
  · have factors : (reg.tree.insert other.tree start).state =
        productState start other.width other.tree.state reg.tree.state :=
      product.trans (funext fun bits => mul_comm _ _)
    change (reg.pending.insert start other.pending).act (reg.tree.insert other.tree start).state = _
    rw [factors, PendingGates.act_product room, split]
    rfl

/-- Settling the gates of a whole leaves its parts as they were. -/
theorem Parts.settled {range : QubitRange} {part rest : Register ℝ}
    (parts : reg.Parts range part rest) (settles : Settles reg left) :
    left.Parts range part rest where
  partSound := parts.partSound
  leftSound := parts.leftSound
  partWidth := parts.partWidth
  leftWidth := parts.leftWidth.trans (congrArg (· - range.length) settles.width.symm)
  state := settles.state.trans parts.state

structure Composes (reg other : Register ℝ) (start : ℕ)
    (run : Except (RegisterError ℝ) ℕ × Register ℝ) : Prop where
  returns : run.1 = .ok start
  sound : run.2.Sound
  width : run.2.width = reg.width + other.width
  parts : run.2.Parts ⟨start, other.width⟩ other reg

theorem Sound.composes_afterChange (sound : reg.Sound) (otherSound : other.Sound)
    (le : start ≤ reg.width) :
    Composes reg other start
      (.ok start, (reg.inserted other.tree other.pending start).afterChange) := by
  have inserted := sound.inserted otherSound.tree otherSound.slots le
  have settles := inserted.settles_afterChange
  exact ⟨rfl, settles.sound, settles.width.trans (sound.tree.insert otherSound.tree le).2.1,
    (sound.parts_inserted otherSound le).settled settles⟩

/-- Registers that can be addressed together are composed at every position. -/
theorem Sound.composes_compose (sound : reg.Sound) (otherSound : other.Sound)
    (le : start ≤ reg.width) (narrow : reg.width + other.width ≤ BasisIndex.maxWidth) :
    Composes reg other start ((Register.compose other start).runOn reg) := by
  rw [runOn_compose, if_neg (not_lt.mpr le), if_neg (not_lt.mpr narrow)]
  exact sound.composes_afterChange otherSound le

theorem Sound.emptied_state (sound : reg.Sound) (length : ℕ) :
    (reg.emptied length).state = Tree.basisState 0 0 length 1 := by
  have tree : (reg.emptied length).tree = Tree.basis length 0 1 0 := by
    rw [Register.emptied, sound.threshold_eq]
  rw [state, tree, (Tree.sound_basis length 0 1).2,
    show (reg.emptied length).pending = .empty length from rfl, PendingGates.act_empty]
  funext bits
  rw [Amplitude.toComplex_one, one_mul]

theorem Sound.composes_self (sound : reg.Sound) (start : ℕ) :
    Composes reg (reg.emptied 0) start (.ok start, reg) := by
  have empty := sound.emptied 0
  refine ⟨rfl, sound, rfl, empty, sound, rfl, rfl, ?_⟩
  have outside (bits : Assignment) : dropped start 0 bits = bits := funext fun q => ite_self (bits q)
  have unit (bits : Assignment) : (reg.emptied 0).state bits = 1 := by
    rw [sound.emptied_state, Tree.basisState_self]
  funext bits
  rw [productState, unit, one_mul]
  exact congrArg reg.state (outside bits).symm

/-- An allocation composes a register with an empty one. -/
theorem Sound.composes_allocate (sound : reg.Sound) (le : start ≤ reg.width) (length : ℕ) :
    Composes reg (reg.emptied length) start ((Register.allocate start length).runOn reg) := by
  rw [runOn_allocate, if_neg (not_lt.mpr le)]
  split
  · next none =>
      subst none
      exact sound.composes_self start
  · exact sound.composes_afterChange (sound.emptied length) le

/-! ## Amplitudes -/

theorem Composes.represented {run : Except (RegisterError ℝ) ℕ × Register ℝ}
    (composes : Composes reg other start run) (index : BasisIndex) :
    run.2.represented index =
      reg.represented ((QubitRange.mk start other.width).remove index) *
        other.represented ((QubitRange.mk start other.width).read index) := by
  apply Amplitude.toComplex_injective
  rw [composes.parts.represented composes.sound, Amplitude.toComplex_mul, Amplitude.toComplex_mul,
    mul_comm]

theorem Sound.represented_emptied (sound : reg.Sound) {index : BasisIndex}
    (bound : index < 2 ^ length) :
    (reg.emptied length).represented index = if index = 0 then 1 else 0 := by
  have zero : (∀ q, 0 ≤ q → q < length → index.testBit q = Nat.testBit 0 q) ↔ index = 0 := by
    constructor
    · exact fun same => BasisIndex.eq_of_testBit bound (Nat.two_pow_pos length) fun q =>
        same q (Nat.zero_le q)
    · rintro rfl q - -
      rfl
  apply Amplitude.toComplex_injective
  rw [(sound.emptied length).toComplex_represented, sound.emptied_state, Tree.basisState,
    if_congr zero rfl rfl]
  split <;> rfl

/-- Composing registers that can be addressed together returns at every position, and multiplies
their amplitudes; allocated qubits all read 0. -/
theorem compose_represented (reachable : Reachable reg) (otherReachable : Reachable other)
    (within : start ≤ reg.width) :
    (reg.width + other.width ≤ BasisIndex.maxWidth → ∃ left,
      (compose other start).runOn reg = (.ok start, left) ∧
      left.width = reg.width + other.width ∧
      ∀ index < 2 ^ left.width, left.represented index =
        reg.represented ((QubitRange.mk start other.width).remove index) *
          other.represented ((QubitRange.mk start other.width).read index)) ∧
    ∀ length, ∃ left,
      (allocate start length).runOn reg = (.ok start, left) ∧
      left.width = reg.width + length ∧
      ∀ index < 2 ^ left.width, left.represented index =
        reg.represented ((QubitRange.mk start length).remove index) *
          if (QubitRange.mk start length).read index = 0 then 1 else 0 := by
  have sound := reachable.sound
  constructor
  · intro narrow
    have composes := sound.composes_compose otherReachable.sound within narrow
    exact ⟨_, Prod.ext composes.returns rfl, composes.width, fun index _ =>
      composes.represented index⟩
  · intro length
    have composes := sound.composes_allocate within length
    have width : (reg.emptied length).width = length := rfl
    refine ⟨_, Prod.ext composes.returns rfl, composes.width, fun index _ => ?_⟩
    rw [composes.represented, width,
      sound.represented_emptied (QubitRange.read_lt ⟨start, length⟩ index)]

/-- A qubit with a waiting Hadamard gate is put below another one with such a gate. -/
theorem compose_waiting_hadamards :
    ∃ fresh other : Register ℝ, create 1 0 exactConfig 0 = .ok fresh ∧
      create 1 1 exactConfig 0 = .ok other ∧
      let reg := ((applyWhere [] true .hadamard 0).runOn fresh).2
      let other := ((applyWhere [] true .hadamard 0).runOn other).2
      ∃ left, (compose other 0).runOn reg = (.ok 0, left) ∧ left.width = 2 ∧
        ∀ index < 4, left.represented index =
          reg.represented ((QubitRange.mk 0 1).remove index) *
            other.represented ((QubitRange.mk 0 1).read index) := by
  obtain ⟨fresh, made⟩ : ∃ fresh, create 1 0 exactConfig 0 = .ok fresh :=
    exists_create validate_exactConfig (by decide) rfl 0
  obtain ⟨other, otherMade⟩ : ∃ other, create 1 1 exactConfig 0 = .ok other :=
    exists_create validate_exactConfig (by decide) rfl 0
  refine ⟨fresh, other, made, otherMade, ?_⟩
  obtain ⟨sound, -, width, -⟩ := sound_of_create made rfl
  obtain ⟨otherSound, -, otherWidth, -⟩ := sound_of_create otherMade rfl
  have reachable := (Reachable.create rfl made).gate [] true .hadamard 0
  have otherReachable := (Reachable.create rfl otherMade).gate [] true .hadamard 0
  have one := (keeps_applyWhere [] true .hadamard 0 fresh sound).width.trans width
  have otherOne := (keeps_applyWhere [] true .hadamard 0 other otherSound).width.trans otherWidth
  have narrow : ((applyWhere [] true .hadamard 0).runOn fresh).2.width +
      ((applyWhere [] true .hadamard 0).runOn other).2.width ≤ BasisIndex.maxWidth := by
    rw [one, otherOne]
    decide
  obtain ⟨left, run, wide, product⟩ :=
    (compose_represented reachable otherReachable (Nat.zero_le _)).1 narrow
  rw [one, otherOne] at wide
  rw [otherOne, wide] at product
  exact ⟨left, run, wide, product⟩

end Register

end AmplitudeTree
