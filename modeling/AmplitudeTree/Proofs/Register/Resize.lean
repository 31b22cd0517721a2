import AmplitudeTree.Proofs.PendingGates.Split
import AmplitudeTree.Proofs.Register.Basic
import AmplitudeTree.Proofs.Tree.Insert
import AmplitudeTree.Proofs.Tree.Restrict
import AmplitudeTree.Proofs.Tree.Split
import AmplitudeTree.Register.Resize

/-!
# Adding and removing qubits

Putting registers together and taking them apart keeps them sound.  A range that is split off takes
its waiting gates along, and the state is the product of the two states that result.
-/

namespace AmplitudeTree.Register

open AmplitudeTree.Action Assignment

variable {reg other left part : Register ℝ} {start : ℕ} {range : QubitRange}

/-! ## Conditions -/

theorem checkRange_eq_ok : reg.checkRange range = .ok () ↔ range.stop ≤ reg.width := by
  unfold checkRange
  split <;> simp_all

/-! ## Empty registers -/

noncomputable def emptied (reg : Register ℝ) (width : ℕ) : Register ℝ :=
  { reg with
    tree := .basis width 0 1 reg.threshold
    pending := .empty width
    generator := .ofSeed reg.generator.word.1 }

theorem Sound.emptied (sound : reg.Sound) (width : ℕ) : (reg.emptied width).Sound where
  tree := by
    unfold Register.emptied
    rw [sound.threshold_eq]
    exact (Tree.sound_basis width 0 1).1
  slots := List.length_replicate
  exact := sound.exact
  admitted := sound.admitted

/-! ## Insertion -/

noncomputable def inserted (reg : Register ℝ) (tree : Tree ℝ) (pending : PendingGates ℝ)
    (start : ℕ) : Register ℝ :=
  { reg with tree := reg.tree.insert tree start, pending := reg.pending.insert start pending }

theorem Sound.inserted (sound : reg.Sound) {tree : Tree ℝ} (treeSound : tree.Sound True)
    {pending : PendingGates ℝ} (slots : pending.width = tree.width) (le : start ≤ reg.width) :
    (reg.inserted tree pending start).Sound := by
  obtain ⟨joined, width, -⟩ := sound.tree.insert treeSound le
  refine ⟨joined, ?_, sound.exact, sound.admitted⟩
  refine (PendingGates.width_insert (le.trans_eq sound.slots.symm) pending).trans
    (Eq.trans ?_ width.symm)
  rw [slots, sound.slots]
  rfl

theorem runOn_compose (reg other : Register ℝ) (start : ℕ) :
    (compose other start).runOn reg =
      if reg.width < start then (.error (.qubitOutOfRange start reg.width), reg)
      else if BasisIndex.maxWidth < reg.width + other.width then
        (.error (.tooManyQubits (reg.width + other.width) BasisIndex.maxWidth), reg)
      else (.ok start, (reg.inserted other.tree other.pending start).afterChange) := by
  rw [compose, runOn_bind, runOn_get]
  dsimp only
  split
  · rfl
  · split <;> rfl

theorem Sound.compose (sound : reg.Sound) (otherSound : other.Sound) (start : ℕ) :
    ((compose other start).runOn reg).2.Sound := by
  rw [runOn_compose]
  split
  · exact sound
  · next le =>
      split
      · exact sound
      · exact (sound.inserted otherSound.tree otherSound.slots
          (not_lt.mp le)).settles_afterChange.sound

theorem runOn_allocate (reg : Register ℝ) (start length : ℕ) :
    (allocate start length).runOn reg =
      if reg.width < start then (.error (.qubitOutOfRange start reg.width), reg)
      else if length = 0 then (.ok start, reg)
      else (.ok start, (reg.inserted (reg.emptied length).tree (reg.emptied length).pending
        start).afterChange) := by
  rw [allocate, runOn_bind, runOn_get]
  dsimp only
  split
  · rfl
  · by_cases none : length = 0
    · rw [if_pos none, if_pos (by rwa [beq_iff_eq])]
      rfl
    · rw [if_neg none, if_neg (by rwa [beq_iff_eq])]
      rfl

theorem Sound.allocate (sound : reg.Sound) (start length : ℕ) :
    ((allocate start length).runOn reg).2.Sound := by
  rw [runOn_allocate]
  split
  · exact sound
  · next le =>
      split
      · exact sound
      · have empty := sound.emptied length
        exact (sound.inserted empty.tree empty.slots (not_lt.mp le)).settles_afterChange.sound

/-! ## Splitting -/

structure Parts (reg : Register ℝ) (range : QubitRange) (part left : Register ℝ) : Prop where
  partSound : part.Sound
  leftSound : left.Sound
  partWidth : part.width = range.length
  leftWidth : left.width = reg.width - range.length
  state : reg.state = productState range.start range.length part.state left.state

theorem Parts.settle {part' left' : Register ℝ} (parts : reg.Parts range part left)
    (first : Settles part part') (second : Settles left left') : reg.Parts range part' left' where
  partSound := first.sound
  leftSound := second.sound
  partWidth := first.width.trans parts.partWidth
  leftWidth := second.width.trans parts.leftWidth
  state := by rw [first.state, second.state, parts.state]

noncomputable def takenInto (reg other : Register ℝ) (range : QubitRange) (tree : Tree ℝ) :
    Register ℝ :=
  { other with tree := tree, pending := (reg.pending.split range.start range.length).1 }

noncomputable def without (reg : Register ℝ) (range : QubitRange) (tree : Tree ℝ) : Register ℝ :=
  { reg with tree := tree, pending := (reg.pending.split range.start range.length).2 }

/-- A range that is split off the tree takes its waiting gates along. -/
theorem Sound.parts (sound : reg.Sound) (otherSound : other.Sound) (inside : range.stop ≤ reg.width)
    {tree rest : Tree ℝ}
    (parted : reg.tree.split range.start range.length = (some tree, rest)) :
    reg.Parts range (reg.takenInto other range tree) (reg.without range rest) := by
  have splits := sound.tree.split (show range.start + range.length ≤ reg.tree.width from inside)
  rw [parted] at splits
  obtain ⟨treeSound, width, restWidth, product⟩ := splits.parted tree rfl
  have slots : range.start + range.length ≤ reg.pending.width := inside.trans_eq sound.slots.symm
  obtain ⟨partSlots, restSlots⟩ := PendingGates.width_split slots
  refine ⟨⟨treeSound, partSlots.trans width.symm, otherSound.exact, otherSound.admitted⟩,
    ⟨splits.sound, restSlots.trans ?_, sound.exact, sound.admitted⟩, width, restWidth, ?_⟩
  · exact (congrArg (· - range.length) sound.slots).trans restWidth.symm
  · have factors : reg.tree.state = productState range.start range.length tree.state rest.state :=
      funext product
    rw [state, factors, PendingGates.act_product slots]
    rfl

/-- A failed split rebuilds the tree at most. -/
theorem Sound.unsplit (sound : reg.Sound) (inside : range.stop ≤ reg.width) {rest : Tree ℝ}
    (entangled : reg.tree.split range.start range.length = (none, rest)) :
    Settles reg { reg with tree := rest } := by
  have splits := sound.tree.split (show range.start + range.length ≤ reg.tree.width from inside)
  rw [entangled] at splits
  obtain ⟨width, same⟩ := splits.kept rfl
  exact
    { toRetains := ⟨sound.withTree splits.sound width, width, rfl, rfl⟩
      state := congrArg reg.pending.act same
      waiting := fun _ => Or.inl rfl }

theorem runOn_splitTree (reg : Register ℝ) (range : QubitRange) :
    (splitTree range).runOn reg =
      ((reg.tree.split range.start range.length).1.elim (.error (.notSeparable range)) .ok,
        { reg with tree := (reg.tree.split range.start range.length).2 }) := by
  rw [splitTree, runOn_bind, runOn_modifyGet]
  dsimp only
  generalize reg.tree.split range.start range.length = result
  obtain ⟨part?, rest⟩ := result
  cases part? <;> rfl

/-- What a range that is split off becomes, and what is left of the register. -/
theorem runOn_decomposeInto (inside : (QubitRange.mk start other.width).stop ≤ reg.width) :
    (decomposeInto start other).runOn reg =
      match reg.tree.split start other.width with
      | (some tree, rest) =>
          (.ok (reg.takenInto other ⟨start, other.width⟩ tree).afterChange,
            (reg.without ⟨start, other.width⟩ rest).afterChange)
      | (none, rest) => (.error (.notSeparable ⟨start, other.width⟩), { reg with tree := rest }) := by
  rw [decomposeInto, runOn_bind, runOn_check, checkRange_eq_ok.mpr inside]
  dsimp only
  rw [runOn_bind, runOn_splitTree]
  generalize reg.tree.split start other.width = result
  obtain ⟨part?, rest⟩ := result
  cases part? <;> rfl

theorem runOn_dispose (inside : range.stop ≤ reg.width) :
    (dispose range).runOn reg =
      match reg.tree.split range.start range.length with
      | (some _, rest) => (.ok (), (reg.without range rest).afterChange)
      | (none, rest) => (.error (.notSeparable range), { reg with tree := rest }) := by
  rw [dispose, runOn_bind, runOn_check, checkRange_eq_ok.mpr inside]
  dsimp only
  rw [runOn_bind, runOn_splitTree]
  generalize reg.tree.split range.start range.length = result
  obtain ⟨part?, rest⟩ := result
  cases part? <;> rfl

/-- A range that is split off leaves two sound registers; otherwise this one stays sound. -/
theorem Sound.decomposeInto (sound : reg.Sound) (otherSound : other.Sound) (start : ℕ) :
    ((decomposeInto start other).runOn reg).2.Sound ∧
      ∀ part, ((decomposeInto start other).runOn reg).1 = .ok part → part.Sound := by
  by_cases inside : (QubitRange.mk start other.width).stop ≤ reg.width
  · rw [runOn_decomposeInto inside]
    cases parted : reg.tree.split start other.width with
    | mk part? rest =>
        cases part? with
        | none => exact ⟨(sound.unsplit inside parted).sound, nofun⟩
        | some tree =>
            have parts := sound.parts otherSound inside parted
            refine ⟨parts.leftSound.settles_afterChange.sound, ?_⟩
            rintro _ ⟨⟩
            exact parts.partSound.settles_afterChange.sound
  · rw [Register.decomposeInto, runOn_bind, runOn_check, checkRange, if_neg inside]
    exact ⟨sound, nofun⟩

theorem Sound.dispose (sound : reg.Sound) (range : QubitRange) :
    ((dispose range).runOn reg).2.Sound := by
  by_cases inside : range.stop ≤ reg.width
  · rw [runOn_dispose inside]
    cases parted : reg.tree.split range.start range.length with
    | mk part? rest =>
        cases part? with
        | none => exact (sound.unsplit inside parted).sound
        | some tree => exact (sound.parts sound inside parted).leftSound.settles_afterChange.sound
  · rw [Register.dispose, runOn_bind, runOn_check, checkRange, if_neg inside]
    exact sound

theorem runOn_decompose (inside : range.stop ≤ reg.width) :
    (decompose range).runOn reg = (decomposeInto range.start (reg.emptied range.length)).runOn
      { reg with generator := reg.generator.word.2 } := by
  rw [decompose, runOn_bind, runOn_check, checkRange_eq_ok.mpr inside]
  rfl

theorem Sound.decompose (sound : reg.Sound) (range : QubitRange) :
    ((decompose range).runOn reg).2.Sound ∧
      ∀ part, ((decompose range).runOn reg).1 = .ok part → part.Sound := by
  by_cases inside : range.stop ≤ reg.width
  · rw [runOn_decompose inside]
    exact (sound.withGenerator _).sound.decomposeInto (sound.emptied _) _
  · rw [Register.decompose, runOn_bind, runOn_check, checkRange, if_neg inside]
    exact ⟨sound, nofun⟩

/-! ## Removal of known values -/

noncomputable def settledRange (reg : Register ℝ) (range : QubitRange) : Register ℝ :=
  (List.range' range.start range.length).foldl settle reg

theorem Sound.settles_settledRange (sound : reg.Sound) (range : QubitRange) :
    Settles reg (reg.settledRange range) :=
  Sound.settles_foldl (fun _ qubit sound => sound.settles_settle qubit) _ sound

noncomputable def cleared (reg : Register ℝ) (range : QubitRange) (tree : Tree ℝ) : Register ℝ :=
  { reg with
    tree := tree.normalize reg.config.normalization
    pending := (reg.pending.split range.start range.length).2 }

noncomputable def restricted (reg : Register ℝ) (range : QubitRange) (value : BasisIndex) :
    Except (RegisterError ℝ) Unit × Register ℝ :=
  match reg.tree.restrict range.start range.length value with
  | (true, tree) => (.ok (), (reg.cleared range tree).afterChange)
  | (false, tree) => (.error (.impossibleOutcome range.start), { reg with tree := tree })

theorem runOn_disposeAt (inside : range.stop ≤ reg.width) (value : BasisIndex) :
    (disposeAt range value).runOn reg =
      match (value.check range.length).mapError RegisterError.indexOutOfRange with
      | .error e => (.error e, reg)
      | .ok _ => (reg.settledRange range).restricted range value := by
  rw [disposeAt, runOn_bind, runOn_check, checkRange_eq_ok.mpr inside]
  dsimp only
  rw [runOn_bind, runOn_check]
  cases Except.mapError RegisterError.indexOutOfRange (value.check range.length) with
  | error e => rfl
  | ok _ =>
      dsimp only
      rw [runOn_bind, runOn_modify]
      dsimp only
      rw [runOn_bind, runOn_modifyGet]
      rw [show (List.range' range.start range.length).foldl settle reg = reg.settledRange range
        from rfl, restricted]
      generalize (reg.settledRange range).tree.restrict range.start range.length value = result
      obtain ⟨kept, tree⟩ := result
      cases kept <;> rfl

theorem Sound.cleared (sound : reg.Sound) (inside : range.stop ≤ reg.width) (value : BasisIndex)
    (kept : (reg.tree.restrict range.start range.length value).1 = true) :
    let left := reg.cleared range (reg.tree.restrict range.start range.length value).2
    left.Sound ∧ left.width = reg.width - range.length := by
  intro left
  have restricts := sound.tree.restrict (show range.start + range.length ≤ _ from inside) value
  obtain ⟨width, -⟩ := restricts.removed kept
  obtain ⟨-, slots⟩ := PendingGates.width_split (inside.trans_eq sound.slots.symm)
  have leftWidth : left.width = reg.width - range.length := (Tree.width_normalize _ _).trans width
  exact ⟨⟨(restricts.sound.normalize _).1,
    (slots.trans (congrArg (· - range.length) sound.slots)).trans leftWidth.symm,
    sound.exact, sound.admitted⟩, leftWidth⟩

theorem Sound.restricted (sound : reg.Sound) (inside : range.stop ≤ reg.width)
    (value : BasisIndex) : (reg.restricted range value).2.Sound := by
  have restricts := sound.tree.restrict (show range.start + range.length ≤ _ from inside) value
  have cleared := sound.cleared inside value
  unfold Register.restricted
  generalize reg.tree.restrict range.start range.length value = result at restricts cleared ⊢
  obtain ⟨kept, tree⟩ := result
  cases kept with
  | false => exact sound.withTree restricts.sound (restricts.kept rfl).1
  | true => exact (cleared rfl).1.settles_afterChange.sound

theorem Sound.disposeAt (sound : reg.Sound) (range : QubitRange) (value : BasisIndex) :
    ((disposeAt range value).runOn reg).2.Sound := by
  by_cases inside : range.stop ≤ reg.width
  · have settled := sound.settles_settledRange range
    rw [runOn_disposeAt inside]
    cases (value.check range.length).mapError RegisterError.indexOutOfRange with
    | error e => exact sound
    | ok _ => exact settled.sound.restricted (inside.trans_eq settled.width.symm) value
  · rw [Register.disposeAt, runOn_bind, runOn_check, checkRange, if_neg inside]
    exact sound

end AmplitudeTree.Register
