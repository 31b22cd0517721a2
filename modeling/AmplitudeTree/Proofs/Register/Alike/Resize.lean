import AmplitudeTree.Proofs.Register.Alike.Basic
import AmplitudeTree.Proofs.Register.Compose
import AmplitudeTree.Proofs.Tree.UnitNorm

/-!
# Adding qubits to alike registers and removing them

The state of a product of alike registers is turned by both of their phases.  A range that is split
off has norm one, so the phase of the whole goes to its two parts in some way.  Whether a range can
be split off, or has a value, depends on the state alone.
-/

namespace AmplitudeTree

open Assignment

/-! ## Products -/

section Products

variable {start length : ℕ} {first second first' second' : Assignment → ℂ}

theorem productState_smul (c d : ℂ) (first second : Assignment → ℂ) :
    productState start length (c • first) (d • second) =
      (c * d) • productState start length first second := by
  funext bits
  simp only [productState, Pi.smul_apply, smul_eq_mul]
  ring

theorem Turned.product (firsts : Turned first first') (seconds : Turned second second') :
    Turned (productState start length first second) (productState start length first' second') := by
  obtain ⟨phase, unit, rfl⟩ := firsts
  obtain ⟨phase', unit', rfl⟩ := seconds
  exact ⟨phase * phase', by rw [map_mul, unit, unit', one_mul], productState_smul ..⟩

theorem Assignment.exists_taken_dropped (start length : ℕ) (bits rest : Assignment) :
    ∃ whole, (∀ q < length, taken start length whole q = bits q) ∧
      dropped start length whole = rest := by
  obtain ⟨index, -, same⟩ := BasisIndex.exists_testBit length bits
  exact ⟨filled start length index rest,
    fun q inside => (taken_filled start index rest inside).trans (same q inside),
    dropped_filled start length index rest⟩

theorem productState_ne_zero
    (reads : ∀ bits other : Assignment, (∀ q < length, bits q = other q) → first bits = first other)
    (some : first ≠ 0) (some' : second ≠ 0) : productState start length first second ≠ 0 := by
  obtain ⟨bits, found⟩ := Function.ne_iff.mp some
  obtain ⟨rest, found'⟩ := Function.ne_iff.mp some'
  obtain ⟨whole, same, remains⟩ := exists_taken_dropped start length bits rest
  refine Function.ne_iff.mpr ⟨whole, ?_⟩
  rw [productState, reads _ _ same, remains]
  exact mul_ne_zero found found'

/-- The factors of turned products differ by phases if the first ones have the same norm. -/
theorem Turned.factors
    (reads : ∀ bits other : Assignment, (∀ q < length, bits q = other q) → first bits = first other)
    (reads' : ∀ bits other : Assignment, (∀ q < length, bits q = other q) → first' bits = first' other)
    (some : first ≠ 0) (some' : second ≠ 0)
    (masses : mass length first' = mass length first) (nonzero : mass length first ≠ 0)
    (turned : Turned (productState start length first second)
      (productState start length first' second')) :
    Turned first first' ∧ Turned second second' := by
  obtain ⟨phase, unit, turned⟩ := turned
  obtain ⟨bits, found⟩ := Function.ne_iff.mp some
  obtain ⟨rest, found'⟩ := Function.ne_iff.mp some'
  have products (bits rest : Assignment) :
      first' bits * second' rest = phase * (first bits * second rest) := by
    obtain ⟨whole, same, remains⟩ := exists_taken_dropped start length bits rest
    have here := congrFun turned whole
    rw [Pi.smul_apply, productState, productState, reads _ _ same, reads' _ _ same, remains] at here
    exact here
  -- where both factors have some amplitude, so have the turned ones
  have both : first' bits * second' rest ≠ 0 := by
    rw [products]
    exact mul_ne_zero (ne_zero_of_normSq_one unit) (mul_ne_zero found found')
  obtain ⟨firstSome, secondSome⟩ := mul_ne_zero_iff.mp both
  have proportional : Proportional first first' := by
    refine ⟨phase * second rest / second' rest,
      div_ne_zero (mul_ne_zero (ne_zero_of_normSq_one unit) found') secondSome, funext fun other => ?_⟩
    rw [Pi.smul_apply, smul_eq_mul]
    field_simp
    linear_combination products other rest
  have firsts := proportional.turned masses nonzero
  refine ⟨firsts, ?_⟩
  obtain ⟨phase', unit', rfl⟩ := firsts
  have scaled := ne_zero_of_normSq_one unit'
  refine ⟨phase / phase', by rw [map_div₀, unit, unit', div_one], funext fun other => ?_⟩
  have here := products bits other
  have found : first bits ≠ 0 := found
  rw [Pi.smul_apply, smul_eq_mul] at here
  rw [Pi.smul_apply, smul_eq_mul]
  field_simp
  refine mul_left_cancel₀ found ?_
  linear_combination here

theorem Turned.isProduct {state other : Assignment → ℂ} (turned : Turned state other)
    (product : ∃ first second, state = productState start length first second) :
    ∃ first second, other = productState start length first second := by
  obtain ⟨phase, _, rfl⟩ := turned
  obtain ⟨first, second, rfl⟩ := product
  refine ⟨phase • first, second, ?_⟩
  rw [← one_smul ℂ second, productState_smul, mul_one, one_smul]

end Products

namespace Register

open AmplitudeTree.Action

variable {reg other partner partner' : Register ℝ} {start length : ℕ} {range : QubitRange}

/-! ## Insertion -/

theorem Physical.inserted (physical : reg.Physical) (partner : other.Physical)
    (le : start ≤ reg.width) :
    (reg.inserted other.tree other.pending start).Physical where
  toSound := physical.toSound.inserted partner.tree partner.slots le
  unitary := physical.unitary.insert partner.unitary start
  state_ne_zero := by
    rw [(physical.toSound.parts_inserted partner.toSound le).state]
    exact productState_ne_zero (fun _ _ => partner.toSound.state_congr) partner.state_ne_zero
      physical.state_ne_zero

theorem Sound.width_inserted (sound : reg.Sound) (otherSound : other.Sound)
    (le : start ≤ reg.width) :
    (reg.inserted other.tree other.pending start).width = reg.width + other.width :=
  (sound.tree.insert otherSound.tree le).2.1

/-- Alike registers with alike registers put in are alike. -/
theorem Alike.inserted (alike : Alike reg other) (partners : Alike partner partner')
    (le : start ≤ reg.width) :
    Alike (reg.inserted partner.tree partner.pending start)
      (other.inserted partner'.tree partner'.pending start) := by
  have le' : start ≤ other.width := le.trans_eq alike.width.symm
  refine ⟨alike.physical.inserted partners.physical le,
    alike.otherPhysical.inserted partners.otherPhysical le', ?_, alike.config, alike.generator, ?_⟩
  · rw [alike.otherPhysical.toSound.width_inserted partners.otherPhysical.toSound le',
      alike.physical.toSound.width_inserted partners.physical.toSound le, alike.width, partners.width]
  · rw [(alike.physical.toSound.parts_inserted partners.physical.toSound le).state,
      (alike.otherPhysical.toSound.parts_inserted partners.otherPhysical.toSound le').state,
      partners.width]
    exact partners.turned.product alike.turned

theorem Alike.compose (alike : Alike reg other) (partners : Alike partner partner') (start : ℕ) :
    Agree ((compose partner start).runOn reg) ((compose partner' start).runOn other) := by
  rw [runOn_compose, runOn_compose, alike.width, partners.width]
  split
  · exact ⟨rfl, alike⟩
  · next le =>
      split
      · exact ⟨rfl, alike⟩
      · exact ⟨rfl, (alike.inserted partners (not_lt.mp le)).afterChange⟩

/-! ## Empty registers -/

theorem Physical.emptied (physical : reg.Physical) (length : ℕ) : (reg.emptied length).Physical where
  toSound := physical.toSound.emptied length
  unitary := PendingGates.unitary_empty length
  state_ne_zero := by
    rw [physical.toSound.emptied_state]
    intro none
    have here := congrFun none (Nat.testBit 0)
    rw [Tree.basisState, if_pos fun _ _ _ => rfl] at here
    exact one_ne_zero here

theorem Alike.emptied (alike : Alike reg other) (length : ℕ) :
    Alike (reg.emptied length) (other.emptied length) where
  physical := alike.physical.emptied length
  otherPhysical := alike.otherPhysical.emptied length
  width := rfl
  config := alike.config
  generator := by
    unfold Register.emptied
    rw [alike.generator]
  turned := by
    rw [alike.physical.toSound.emptied_state, alike.otherPhysical.toSound.emptied_state]
    exact .refl _

theorem Alike.allocate (alike : Alike reg other) (start length : ℕ) :
    Agree ((allocate start length).runOn reg) ((allocate start length).runOn other) := by
  rw [runOn_allocate, runOn_allocate, alike.width]
  split
  · exact ⟨rfl, alike⟩
  · next le =>
      split
      · exact ⟨rfl, alike⟩
      · exact ⟨rfl, (alike.inserted (alike.emptied length) (not_lt.mp le)).afterChange⟩

/-! ## Splitting -/

theorem Alike.separable_iff (alike : Alike reg other) (inside : range.stop ≤ reg.width) :
    other.Separable range ↔ reg.Separable range := by
  rw [alike.otherPhysical.toSound.separable_iff (inside.trans_eq alike.width.symm),
    alike.physical.toSound.separable_iff inside]
  exact ⟨alike.turned.symm.isProduct, alike.turned.isProduct⟩

/-- The range that is split off has norm one, and both parts have some amplitude. -/
theorem Physical.parts (physical : reg.Physical) {target : Register ℝ} (sound : target.Sound)
    (inside : range.stop ≤ reg.width) {tree rest : Tree ℝ}
    (parted : reg.tree.split range.start range.length = (some tree, rest)) :
    (reg.takenInto target range tree).Physical ∧ (reg.without range rest).Physical ∧
      mass range.length (reg.takenInto target range tree).state = 1 := by
  have parts := physical.toSound.parts sound inside parted
  obtain ⟨partUnitary, restUnitary⟩ := physical.unitary.split range.start range.length
  have product := physical.state_ne_zero
  rw [parts.state] at product
  obtain ⟨bits, found⟩ := Function.ne_iff.mp product
  obtain ⟨partFound, restFound⟩ := mul_ne_zero_iff.mp found
  have part : (reg.takenInto target range tree).Physical :=
    ⟨parts.partSound, partUnitary, Function.ne_iff.mpr ⟨_, partFound⟩⟩
  refine ⟨part, ⟨parts.leftSound, restUnitary, Function.ne_iff.mpr ⟨_, restFound⟩⟩, ?_⟩
  have width := parts.partWidth
  rw [← width, part.mass_eq, width]
  exact physical.tree.mass_part physical.nonzero (show range.start + range.length ≤ _ from inside)
    (congrArg Prod.fst parted)

/-- A range is split off both of two alike registers or off none of them. -/
theorem Alike.split_iff (alike : Alike reg other) (inside : range.stop ≤ reg.width) :
    (∃ tree, (reg.tree.split range.start range.length).1 = some tree) ↔
      ∃ tree, (other.tree.split range.start range.length).1 = some tree := by
  rw [alike.physical.toSound.split_iff_separable alike.physical.unitary
      (alike.physical.tree.normSq_pos_iff.mpr alike.physical.nonzero) inside,
    alike.otherPhysical.toSound.split_iff_separable alike.otherPhysical.unitary
      (alike.otherPhysical.tree.normSq_pos_iff.mpr alike.otherPhysical.nonzero)
      (inside.trans_eq alike.width.symm),
    alike.separable_iff inside]

theorem Alike.parts (alike : Alike reg other) {target target' : Register ℝ}
    (targets : Alike target target') (inside : range.stop ≤ reg.width) {tree rest tree' rest' : Tree ℝ}
    (parted : reg.tree.split range.start range.length = (some tree, rest))
    (parted' : other.tree.split range.start range.length = (some tree', rest')) :
    Alike (reg.takenInto target range tree) (other.takenInto target' range tree') ∧
      Alike (reg.without range rest) (other.without range rest') := by
  have inside' : range.stop ≤ other.width := inside.trans_eq alike.width.symm
  have parts := alike.physical.toSound.parts targets.physical.toSound inside parted
  have parts' := alike.otherPhysical.toSound.parts targets.otherPhysical.toSound inside' parted'
  obtain ⟨part, left, one⟩ := alike.physical.parts targets.physical.toSound inside parted
  obtain ⟨part', left', one'⟩ :=
    alike.otherPhysical.parts targets.otherPhysical.toSound inside' parted'
  have turned := alike.turned
  rw [parts.state, parts'.state] at turned
  obtain ⟨firsts, seconds⟩ := turned.factors parts.part_congr parts'.part_congr part.state_ne_zero
    left.state_ne_zero (one'.trans one.symm) (one.trans_ne one_ne_zero)
  constructor
  · exact ⟨part, part', parts'.partWidth.trans parts.partWidth.symm, targets.config,
      targets.generator, firsts⟩
  · refine ⟨left, left', ?_, alike.config, alike.generator, seconds⟩
    rw [parts'.leftWidth, parts.leftWidth, alike.width]

/-- A range is split off alike registers into alike parts, or leaves them alike. -/
theorem Alike.split (alike : Alike reg other) {target target' : Register ℝ}
    (targets : Alike target target') (inside : range.stop ≤ reg.width) :
    (∃ tree rest tree' rest',
      reg.tree.split range.start range.length = (some tree, rest) ∧
      other.tree.split range.start range.length = (some tree', rest') ∧
      Alike (reg.takenInto target range tree) (other.takenInto target' range tree') ∧
      Alike (reg.without range rest) (other.without range rest')) ∨
    ∃ rest rest', reg.tree.split range.start range.length = (none, rest) ∧
      other.tree.split range.start range.length = (none, rest') ∧
      Alike { reg with tree := rest } { other with tree := rest' } := by
  have success := alike.split_iff inside
  rcases parted : reg.tree.split range.start range.length with ⟨tree | tree, rest⟩ <;>
    rcases parted' : other.tree.split range.start range.length with ⟨tree' | tree', rest'⟩ <;>
    rw [parted, parted'] at success
  · exact Or.inr ⟨rest, rest', rfl, rfl, alike.settles
      (alike.physical.toSound.unsplit inside parted)
      (alike.otherPhysical.toSound.unsplit (inside.trans_eq alike.width.symm) parted')
      alike.generator⟩
  · obtain ⟨_, found⟩ := success.mpr ⟨tree', rfl⟩
    cases found
  · obtain ⟨_, found⟩ := success.mp ⟨tree, rfl⟩
    cases found
  · exact Or.inl ⟨tree, rest, tree', rest', rfl, rfl, alike.parts targets inside parted parted'⟩

theorem Alike.checkRange (alike : Alike reg other) (range : QubitRange) :
    other.checkRange range = reg.checkRange range := by
  rw [Register.checkRange, Register.checkRange, alike.width]

/-- Two runs that return alike registers, or fail for the same reason, and leave alike registers. -/
inductive Parted : Except (RegisterError ℝ) (Register ℝ) × Register ℝ →
    Except (RegisterError ℝ) (Register ℝ) × Register ℝ → Prop
  | returned {part part' left left' : Register ℝ} (parts : Alike part part')
      (rest : Alike left left') : Parted (.ok part, left) (.ok part', left')
  | failed {e : RegisterError ℝ} {left left' : Register ℝ} (rest : Alike left left') :
      Parted (.error e, left) (.error e, left')

/-- Moving a range of alike registers into alike registers leaves alike parts, or fails
for the same reason. -/
theorem Alike.decomposeInto (alike : Alike reg other) (targets : Alike partner partner')
    (start : ℕ) :
    Parted ((decomposeInto start partner).runOn reg) ((decomposeInto start partner').runOn other) := by
  by_cases inside : (QubitRange.mk start partner.width).stop ≤ reg.width
  · have inside' : (QubitRange.mk start partner'.width).stop ≤ other.width := by
      rw [targets.width, alike.width]
      exact inside
    rw [runOn_decomposeInto inside, runOn_decomposeInto inside', targets.width]
    rcases alike.split targets inside with ⟨tree, rest, tree', rest', parted, parted', part, left⟩ |
      ⟨rest, rest', parted, parted', left⟩
    · rw [parted, parted']
      exact .returned part.afterChange left.afterChange
    · rw [parted, parted']
      exact .failed left
  · rw [Register.decomposeInto, Register.decomposeInto, runOn_bind, runOn_bind, runOn_check,
      runOn_check, alike.checkRange, targets.width, Register.checkRange, if_neg inside]
    exact .failed alike

theorem Alike.decompose (alike : Alike reg other) (range : QubitRange) :
    Parted ((decompose range).runOn reg) ((decompose range).runOn other) := by
  by_cases inside : range.stop ≤ reg.width
  · have drawn : Alike { reg with generator := reg.generator.word.2 }
        { other with generator := other.generator.word.2 } :=
      alike.settles (alike.physical.toSound.withGenerator _)
        (alike.otherPhysical.toSound.withGenerator _)
        (congrArg (fun generator => generator.word.2) alike.generator)
    rw [runOn_decompose inside, runOn_decompose (inside.trans_eq alike.width.symm)]
    exact drawn.decomposeInto (alike.emptied range.length) range.start
  · rw [Register.decompose, runOn_bind, runOn_bind, runOn_check, runOn_check, alike.checkRange,
      Register.checkRange, if_neg inside]
    exact .failed alike

theorem Alike.dispose (alike : Alike reg other) (range : QubitRange) :
    Agree ((dispose range).runOn reg) ((dispose range).runOn other) := by
  by_cases inside : range.stop ≤ reg.width
  · rw [runOn_dispose inside, runOn_dispose (inside.trans_eq alike.width.symm)]
    rcases alike.split alike inside with ⟨tree, rest, tree', rest', parted, parted', -, left⟩ |
      ⟨rest, rest', parted, parted', left⟩
    · rw [parted, parted']
      exact ⟨rfl, left.afterChange⟩
    · rw [parted, parted']
      exact ⟨rfl, left⟩
  · rw [Register.dispose, runOn_bind, runOn_bind, runOn_check, runOn_check, alike.checkRange,
      Register.checkRange, if_neg inside]
    exact ⟨rfl, alike⟩

/-! ## Removal of known values -/

def remainder (range : QubitRange) (value : BasisIndex) (state : Assignment → ℂ)
    (bits : Assignment) : ℂ :=
  state (filled range.start range.length value bits)

theorem remainder_smul (range : QubitRange) (value : BasisIndex) (c : ℂ) (state : Assignment → ℂ) :
    remainder range value (c • state) = c • remainder range value state := rfl

theorem Sound.get?_settledRange (sound : reg.Sound) {q : ℕ} (inside : q < range.length) :
    (reg.settledRange range).pending.get? (range.start + q) = none := by
  refine Sound.foldl_each (fun q reg => reg.pending.get? q = none)
    (fun _ qubit sound => sound.settles_settle qubit) (fun reg q _ => reg.get?_settle_self q)
    (fun _ _ _ settles => settles.free) _ sound _ ?_
  exact List.mem_range'_1.mpr ⟨Nat.le_add_right _ _, Nat.add_lt_add_left inside _⟩

section Restriction

variable (physical : reg.Physical) (inside : range.stop ≤ reg.width)
  (free : ∀ q < range.length, reg.pending.get? (range.start + q) = none) (value : BasisIndex)

include physical inside free

/-- The gates outside a range act on what is left when the range has a value. -/
theorem Physical.remainder_state :
    remainder range value reg.state =
      (reg.pending.split range.start range.length).2.act
        (remainder range value reg.tree.state) := by
  have slots : range.start + range.length ≤ reg.pending.width := by
    rw [physical.slots]
    exact inside
  exact PendingGates.act_filled slots free value reg.tree.state

/-- A removal of a value that is not there rebuilds the tree at most. -/
theorem Physical.restrict_lost
    (lost : (reg.tree.restrict range.start range.length value).1 = false) :
    remainder range value reg.state = 0 ∧
      Settles reg { reg with tree := (reg.tree.restrict range.start range.length value).2 } := by
  have restricts := physical.tree.restrict (show range.start + range.length ≤ _ from inside) value
  obtain ⟨width, same, none⟩ := restricts.kept lost
  constructor
  · rw [physical.remainder_state inside free,
      show remainder range value reg.tree.state = 0 from funext none]
    exact PendingGates.actOn_zero _ _
  · exact
      { toRetains := ⟨physical.toSound.withTree restricts.sound width, width, rfl, rfl⟩
        state := congrArg reg.pending.act same
        waiting := fun _ => Or.inl rfl }

/-- A removal of a value keeps the state that is left for it, with norm one. -/
theorem Physical.restrict_kept
    (kept : (reg.tree.restrict range.start range.length value).1 = true) :
    let left := reg.cleared range (reg.tree.restrict range.start range.length value).2
    left.Physical ∧ left.width = reg.width - range.length ∧
      mass (reg.width - range.length) left.state = 1 ∧
      Proportional (remainder range value reg.state) left.state := by
  intro left
  have restricts := physical.tree.restrict (show range.start + range.length ≤ _ from inside) value
  obtain ⟨sound, width⟩ := physical.toSound.cleared inside value kept
  obtain ⟨-, states⟩ := restricts.removed kept
  obtain ⟨-, factor, positive, divided⟩ := restricts.sound.normalize reg.config.normalization
  have one : mass left.tree.width left.tree.state = 1 :=
    (congrArg (mass · _) (Tree.width_normalize _ _)).trans
      (restricts.sound.mass_normalize (Tree.isZero_restrict kept) reg.config.normalization)
  have treeState : left.tree.state = (factor : ℂ)⁻¹ • remainder range value reg.tree.state := by
    refine divided.trans (funext fun bits => ?_)
    rw [states]
    exact div_eq_inv_mul ..
  have someLeft : left.tree.state ≠ 0 := by
    intro none
    rw [none, mass_zero] at one
    exact zero_ne_one one
  obtain ⟨-, unitary⟩ := physical.unitary.split range.start range.length
  have cleared : left.Physical := ⟨sound, unitary, unitary.act_ne_zero_iff.mpr someLeft⟩
  refine ⟨cleared, width, ?_, (factor : ℂ)⁻¹,
    inv_ne_zero (Complex.ofReal_ne_zero.mpr positive.ne'), ?_⟩
  · rw [← width, cleared.mass_eq]
    exact one
  · rw [physical.remainder_state inside free, state, treeState, PendingGates.act_smul]
    rfl

theorem Physical.restrict_iff :
    (reg.tree.restrict range.start range.length value).1 = true ↔
      remainder range value reg.state ≠ 0 := by
  cases kept : (reg.tree.restrict range.start range.length value).1 with
  | false =>
      obtain ⟨none, -⟩ := physical.restrict_lost inside free value kept
      exact iff_of_false Bool.false_ne_true (not_not.mpr none)
  | true =>
      obtain ⟨left, -, -, proportional⟩ := physical.restrict_kept inside free value kept
      exact iff_of_true rfl (proportional.symm.ne_zero left.state_ne_zero)

end Restriction

theorem Alike.restricted (alike : Alike reg other) (inside : range.stop ≤ reg.width)
    (free : ∀ q < range.length, reg.pending.get? (range.start + q) = none)
    (free' : ∀ q < range.length, other.pending.get? (range.start + q) = none)
    (value : BasisIndex) : Agree (reg.restricted range value) (other.restricted range value) := by
  have inside' : range.stop ≤ other.width := inside.trans_eq alike.width.symm
  have parts := alike.turned.map (remainder_smul range value)
  have success := alike.physical.restrict_iff inside free value
  have success' := alike.otherPhysical.restrict_iff inside' free' value
  have lost := alike.physical.restrict_lost inside free value
  have lost' := alike.otherPhysical.restrict_lost inside' free' value
  have kept := alike.physical.restrict_kept inside free value
  have kept' := alike.otherPhysical.restrict_kept inside' free' value
  have same : remainder range value other.state ≠ 0 ↔ remainder range value reg.state ≠ 0 :=
    ⟨parts.symm.proportional.ne_zero, parts.proportional.ne_zero⟩
  unfold Register.restricted
  generalize reg.tree.restrict range.start range.length value = result at *
  generalize other.tree.restrict range.start range.length value = result' at *
  obtain ⟨found, tree⟩ := result
  obtain ⟨found', tree'⟩ := result'
  obtain rfl : found' = found :=
    Bool.eq_iff_iff.mpr (success'.trans (same.trans success.symm))
  cases found' with
  | false => exact ⟨rfl, alike.settles (lost rfl).2 (lost' rfl).2 alike.generator⟩
  | true =>
      obtain ⟨physical, width, one, proportional⟩ := kept rfl
      obtain ⟨physical', width', one', proportional'⟩ := kept' rfl
      rw [alike.width] at width' one'
      have left : Alike (reg.cleared range tree) (other.cleared range tree') :=
        ⟨physical, physical', width'.trans width.symm, alike.config, alike.generator,
          parts.scaled proportional proportional' one one'⟩
      exact ⟨rfl, left.afterChange⟩

/-- Dropping a range of alike registers at a value agrees. -/
theorem Alike.disposeAt (alike : Alike reg other) (range : QubitRange) (value : BasisIndex) :
    Agree ((disposeAt range value).runOn reg) ((disposeAt range value).runOn other) := by
  by_cases inside : range.stop ≤ reg.width
  · have settled : Alike (reg.settledRange range) (other.settledRange range) :=
      alike.settles (alike.physical.toSound.settles_settledRange range)
        (alike.otherPhysical.toSound.settles_settledRange range) (by
          rw [settledRange, settledRange, generator_foldl generator_settle,
            generator_foldl generator_settle, alike.generator])
    have width := (alike.physical.toSound.settles_settledRange range).width
    have free : ∀ q < range.length,
        (reg.settledRange range).pending.get? (range.start + q) = none :=
      fun _ below => alike.physical.toSound.get?_settledRange below
    have free' : ∀ q < range.length,
        (other.settledRange range).pending.get? (range.start + q) = none :=
      fun _ below => alike.otherPhysical.toSound.get?_settledRange below
    rw [runOn_disposeAt inside, runOn_disposeAt (inside.trans_eq alike.width.symm)]
    generalize reg.settledRange range = middle at *
    generalize other.settledRange range = middle' at *
    cases (value.check range.length).mapError RegisterError.indexOutOfRange with
    | error e => exact ⟨rfl, alike⟩
    | ok _ => exact settled.restricted (inside.trans_eq width.symm) free free' value
  · rw [Register.disposeAt, runOn_bind, runOn_bind, runOn_check, runOn_check, alike.checkRange,
      Register.checkRange, if_neg inside]
    exact ⟨rfl, alike⟩

end Register

end AmplitudeTree
