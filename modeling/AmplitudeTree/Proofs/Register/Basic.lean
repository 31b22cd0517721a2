import AmplitudeTree.Proofs.BasisIndex
import AmplitudeTree.Proofs.PendingGates
import AmplitudeTree.Proofs.Register.Action
import AmplitudeTree.Proofs.Tree.Staging

/-!
# Registers and their states

The state of a register is that of its tree after all waiting gates.  Applying waiting gates to the
tree, and reducing the tree, changes a register but not its state.
-/

namespace AmplitudeTree

open AmplitudeTree.Action

namespace PendingGates

theorem get?_of_not_any {p : PendingGates ℝ} (free : p.any = false) (qubit : ℕ) :
    p.get? qubit = none := by
  unfold get?
  cases slot : p.slots[qubit]? with
  | none => rfl
  | some entry =>
      have vacant := List.any_eq_false.mp free entry (List.mem_of_getElem? slot)
      rw [Option.join_some]
      exact Option.not_isSome_iff_eq_none.mp vacant

theorem not_any_of_free {p : PendingGates ℝ} (free : ∀ qubit, p.get? qubit = none) :
    p.any = false := by
  refine List.any_eq_false.mpr fun entry member => ?_
  obtain ⟨qubit, below, rfl⟩ := List.mem_iff_getElem.mp member
  have vacant := free qubit
  rw [get?, List.getElem?_eq_getElem below, Option.join_some] at vacant
  rw [vacant]
  exact Bool.false_ne_true

end PendingGates

namespace Register

variable {reg result : Register ℝ} {qubit : ℕ}

/-- The amplitude of every assignment, after all waiting gates. -/
noncomputable def state (reg : Register ℝ) : Assignment → ℂ := reg.pending.act reg.tree.state

/-- The amplitude of a basis state, after all waiting gates. -/
noncomputable def represented (reg : Register ℝ) (index : BasisIndex) : Amplitude ℝ :=
  reg.settleAll.tree.amplitude index

/-- A register with exact arithmetic, admitted settings and a slot for every qubit of its tree. -/
structure Sound (reg : Register ℝ) : Prop where
  tree : reg.tree.Sound True
  slots : reg.pending.width = reg.width
  exact : reg.config.separability = 0
  admitted : reg.config.validate = .ok ()

noncomputable def exactConfig : Config ℝ := { Config.default with separability := 0 }

theorem checkThreshold_eq_ok {threshold : Threshold} {value : ℝ} :
    Config.checkThreshold threshold value = .ok () ↔ 0 ≤ value ∧ value < 1 := by
  unfold Config.checkThreshold
  rw [← Scalar.le_iff, ← Scalar.lt_iff, ← Bool.and_eq_true]
  split
  · next admitted => exact iff_of_true rfl admitted
  · next refused => exact iff_of_false nofun refused

theorem validate_eq_ok {config : Config ℝ} :
    config.validate = .ok () ↔ (0 ≤ config.separability ∧ config.separability < 1) ∧
      (0 ≤ config.normalization ∧ config.normalization < 1) ∧ config.workers ≠ some 0 ∧
        config.denseLimit < BasisIndex.wordBits := by
  rw [← @checkThreshold_eq_ok .separability, ← @checkThreshold_eq_ok .normalization]
  unfold Config.validate
  cases Config.checkThreshold .separability config.separability with
  | error e => exact iff_of_false nofun fun found => nomatch found.1
  | ok _ =>
      cases Config.checkThreshold .normalization config.normalization with
      | error e => exact iff_of_false nofun fun found => nomatch found.2.1
      | ok _ =>
          by_cases idle : config.workers = some 0
          · refine iff_of_false ?_ fun found => found.2.2.1 idle
            simp [idle, throw, throwThe, MonadExceptOf.throw, bind, Except.bind]
          · by_cases wide : 64 ≤ config.denseLimit
            · refine iff_of_false ?_ fun found => absurd found.2.2.2 (not_lt.mpr wide)
              simp [idle, wide, throw, throwThe, MonadExceptOf.throw, bind, Except.bind]
            · refine iff_of_true ?_ ⟨rfl, rfl, idle, not_le.mp wide⟩
              simp [idle, wide, bind, Except.bind, pure, Except.pure]

theorem validate_exactConfig : exactConfig.validate = .ok () := by
  have positive : (0 : ℝ) ≤ 1 / (10 ^ 10 : ℕ) ∧ (1 : ℝ) / (10 ^ 10 : ℕ) < 1 := by norm_num
  exact validate_eq_ok.mpr ⟨⟨le_refl _, one_pos⟩, positive, nofun, by decide⟩

theorem validate_withSeparability {threshold : ℝ} (nonneg : 0 ≤ threshold) (small : threshold < 1)
    (reduces : Bool) :
    Config.validate { exactConfig with separability := threshold, autoReduce := reduces } = .ok () := by
  obtain ⟨-, others⟩ := validate_eq_ok.mp validate_exactConfig
  exact validate_eq_ok.mpr ⟨⟨nonneg, small⟩, others⟩

/-- Registers whose amplitudes are listed are narrower than a machine word. -/
theorem denseLimit_lt {config : Config ℝ} (admitted : config.validate = .ok ()) :
    config.denseLimit < BasisIndex.wordBits :=
  (validate_eq_ok.mp admitted).2.2.2

theorem Sound.threshold_eq (sound : reg.Sound) : reg.threshold = 0 := sound.exact

theorem Sound.withTree (sound : reg.Sound) {tree : Tree ℝ} (treeSound : tree.Sound True)
    (width : tree.width = reg.width) : Sound { reg with tree := tree } where
  tree := treeSound
  slots := sound.slots.trans width.symm
  exact := sound.exact
  admitted := sound.admitted

structure Retains (reg result : Register ℝ) : Prop where
  sound : result.Sound
  width : result.width = reg.width
  config : result.config = reg.config
  factory : result.factory = reg.factory

theorem Sound.retains_refl (sound : reg.Sound) : Retains reg reg where
  sound := sound
  width := rfl
  config := rfl
  factory := rfl

theorem Retains.trans {last : Register ℝ} (first : Retains reg result)
    (second : Retains result last) : Retains reg last where
  sound := second.sound
  width := second.width.trans first.width
  config := second.config.trans first.config
  factory := second.factory.trans first.factory

/-! ## Actions that keep the register sound -/

/-- The action keeps a register sound, and its width, settings and factory. -/
def Keeps {α : Type} (action : Action ℝ α) : Prop :=
  ∀ reg, reg.Sound → Retains reg (action.runOn reg).2

section Rules

variable {α β : Type} {x : Action ℝ α}

theorem Keeps.bind {f : α → Action ℝ β} (first : Keeps x) (second : ∀ a, Keeps (f a)) :
    Keeps (x >>= f) := by
  intro reg sound
  have halfway := first reg sound
  rw [runOn_bind]
  generalize x.runOn reg = run at halfway ⊢
  obtain ⟨result, left⟩ := run
  cases result with
  | ok a => exact halfway.trans (second a left halfway.sound)
  | error e => exact halfway

theorem Keeps.pure (a : α) : Keeps (pure a : Action ℝ α) := fun _ sound => sound.retains_refl

theorem Keeps.throw (e : RegisterError ℝ) : Keeps (throw e : Action ℝ α) :=
  fun _ sound => sound.retains_refl

theorem Keeps.get : Keeps (get : Action ℝ (Register ℝ)) := fun _ sound => sound.retains_refl

theorem Keeps.query (answer : Register ℝ → Except (RegisterError ℝ) α) : Keeps (query answer) :=
  fun _ sound => sound.retains_refl

theorem Keeps.check (condition : Register ℝ → Except (RegisterError ℝ) Unit) :
    Keeps (check condition) := fun _ sound => sound.retains_refl

theorem Keeps.modify {f : Register ℝ → Register ℝ}
    (retains : ∀ reg, reg.Sound → Retains reg (f reg)) : Keeps (modify f : Action ℝ Unit) := retains

theorem Keeps.get_bind {f : Register ℝ → Action ℝ α}
    (retains : ∀ reg, reg.Sound → Retains reg ((f reg).runOn reg).2) :
    Keeps (MonadState.get >>= f) := retains

theorem Keeps.ite {y : Action ℝ α} {p : Prop} [Decidable p] (yes : Keeps x) (no : Keeps y) :
    Keeps (if p then x else y) := by
  split
  · exact yes
  · exact no

end Rules

/-! ## Settling -/

/-- One register comes from another one by applying some of its waiting gates. -/
structure Settles (reg result : Register ℝ) : Prop extends Retains reg result where
  state : result.state = reg.state
  waiting : ∀ q, result.pending.get? q = reg.pending.get? q ∨ result.pending.get? q = none

theorem Sound.settles_refl (sound : reg.Sound) : Settles reg reg where
  toRetains := sound.retains_refl
  state := rfl
  waiting _ := Or.inl rfl

theorem Settles.trans {last : Register ℝ} (first : Settles reg result)
    (second : Settles result last) : Settles reg last where
  toRetains := first.toRetains.trans second.toRetains
  state := second.state.trans first.state
  waiting q := by
    rcases second.waiting q with same | free
    · rw [same]
      exact first.waiting q
    · exact Or.inr free

theorem Sound.withGenerator (sound : reg.Sound) (generator : Generator) :
    Settles reg { reg with generator := generator } where
  sound := ⟨sound.tree, sound.slots, sound.exact, sound.admitted⟩
  state := rfl
  width := rfl
  config := rfl
  factory := rfl
  waiting _ := Or.inl rfl

theorem Settles.free (settles : Settles reg result) (free : reg.pending.get? qubit = none) :
    result.pending.get? qubit = none := by
  rcases settles.waiting qubit with same | freed
  · rw [same, free]
  · exact freed

theorem Settles.threshold_eq (settles : Settles reg result) : result.threshold = reg.threshold := by
  rw [threshold, settles.config, threshold]

theorem Settles.unitary (settles : Settles reg result) (unitary : reg.pending.Unitary) :
    result.pending.Unitary := by
  intro q gate waits
  rcases settles.waiting q with same | free
  · exact unitary q gate (same.symm.trans waits)
  · rw [free] at waits
    cases waits

/-- A gate that waits on a qubit finds this qubit in the tree. -/
theorem Sound.lt_width_of_waiting (sound : reg.Sound) {gate : Gate ℝ}
    (waits : reg.pending.get? qubit = some gate) : qubit < reg.width := by
  by_contra outside
  rw [PendingGates.get?_of_width_le (sound.slots.le.trans (not_lt.mp outside))] at waits
  cases waits

theorem admissible_nil {width : ℕ} (inside : qubit < width) : Tree.Admissible [] qubit width where
  ascending := ⟨List.Pairwise.nil, nofun⟩
  below := inside
  other := nofun

/-- The gate that waits on a qubit acts on the tree. -/
theorem Sound.tree_settle (sound : reg.Sound) (qubit : ℕ) :
    (reg.settle qubit).tree.Sound True ∧
      (reg.settle qubit).tree.state = reg.pending.actAt qubit reg.tree.state := by
  unfold settle
  cases waits : reg.pending.get? qubit with
  | none => exact ⟨sound.tree, (PendingGates.actAt_of_none waits _).symm⟩
  | some gate =>
      obtain ⟨applied, acts⟩ :=
        sound.tree.apply gate (admissible_nil (sound.lt_width_of_waiting waits))
      refine ⟨applied.reduceIfBloated, ?_⟩
      rw [PendingGates.actAt_of_some waits]
      exact (congrArg (Unfolding.amplitude · 0) applied.reduceIfBloated_unfold).trans acts

theorem Sound.settles_settle (sound : reg.Sound) (qubit : ℕ) : Settles reg (reg.settle qubit) := by
  obtain ⟨applied, acted⟩ := sound.tree_settle qubit
  unfold settle at applied acted ⊢
  cases waits : reg.pending.get? qubit with
  | none => exact sound.settles_refl
  | some gate =>
      rw [waits] at applied acted
      have width : (reg.tree.settle gate qubit).width = reg.width :=
        (Tree.width_reduceIfBloated _).trans (Tree.width_apply _ _ _ _)
      exact
        { sound :=
            { tree := applied
              slots := (PendingGates.width_erase _ _).trans (sound.slots.trans width.symm)
              exact := sound.exact
              admitted := sound.admitted }
          state := by
            change (reg.pending.erase qubit).act (reg.tree.settle gate qubit).state = _
            rw [acted, state, reg.pending.act_erase qubit]
          width := width
          config := rfl
          factory := rfl
          waiting := fun q => by
            by_cases same : q = qubit
            · exact Or.inr (same ▸ PendingGates.get?_erase_self _ _)
            · exact Or.inl (PendingGates.get?_erase_of_ne same) }

theorem get?_settle_self (reg : Register ℝ) (qubit : ℕ) :
    (reg.settle qubit).pending.get? qubit = none := by
  unfold settle
  split
  · assumption
  · exact PendingGates.get?_erase_self _ _

theorem Sound.settles_settleUnlessDiagonal (sound : reg.Sound) (qubit : ℕ) :
    Settles reg (reg.settleUnlessDiagonal qubit) := by
  unfold settleUnlessDiagonal
  split
  · exact sound.settles_refl
  · split
    · exact sound.settles_refl
    · exact sound.settles_settle qubit

theorem isDiagonal_of_settleUnlessDiagonal {gate : Gate ℝ}
    (waits : (reg.settleUnlessDiagonal qubit).pending.get? qubit = some gate) :
    gate.isDiagonal reg.threshold = true := by
  unfold settleUnlessDiagonal at waits
  split at waits
  · next free =>
      rw [free] at waits
      cases waits
  · next waiting found =>
      split at waits
      · next diagonal =>
          rw [found] at waits
          cases waits
          exact diagonal
      · rw [get?_settle_self] at waits
        cases waits

/-- A fold of steps that settle waiting gates settles waiting gates. -/
theorem Sound.settles_foldl {ι : Type} {step : Register ℝ → ι → Register ℝ}
    (settles : ∀ reg i, reg.Sound → Settles reg (step reg i)) (items : List ι)
    (sound : reg.Sound) : Settles reg (items.foldl step reg) := by
  induction items generalizing reg with
  | nil => exact sound.settles_refl
  | cons item items ih => exact (settles reg item sound).trans (ih (settles reg item sound).sound)

/-- What a step makes true of its item holds after the fold, if settling keeps it. -/
theorem Sound.foldl_each {ι : Type} {step : Register ℝ → ι → Register ℝ}
    (done : ι → Register ℝ → Prop) (settles : ∀ reg i, reg.Sound → Settles reg (step reg i))
    (makes : ∀ reg i, reg.Sound → done i (step reg i))
    (keeps : ∀ i {reg result}, Settles reg result → done i reg → done i result)
    (items : List ι) (sound : reg.Sound) :
    ∀ item ∈ items, done item (items.foldl step reg) := by
  induction items generalizing reg with
  | nil => nofun
  | cons first items ih =>
      have next := (settles reg first sound).sound
      intro item member
      rcases List.mem_cons.mp member with rfl | later
      · exact keeps item (Sound.settles_foldl settles items next) (makes reg item sound)
      · exact ih next item later

theorem Sound.settles_afterChange (sound : reg.Sound) : Settles reg reg.afterChange := by
  have settled {tree : Tree ℝ} (treeSound : tree.Sound True) (width : tree.width = reg.width)
      (unfolding : tree.unfold = reg.tree.unfold) : Settles reg { reg with tree := tree } :=
    { sound := sound.withTree treeSound width
      state := congrArg (reg.pending.act ∘ (Unfolding.amplitude · 0)) unfolding
      width := width
      config := rfl
      factory := rfl
      waiting := fun _ => Or.inl rfl }
  unfold afterChange
  split
  · exact settled sound.tree.reduce rfl sound.tree.reduce_unfold
  · exact settled sound.tree.reduceIfBloated (Tree.width_reduceIfBloated _)
      sound.tree.reduceIfBloated_unfold

theorem Sound.settles_settleAll (sound : reg.Sound) : Settles reg reg.settleAll := by
  unfold settleAll
  split
  · have settled : Settles reg ((List.range reg.width).foldl settle reg) :=
      Sound.settles_foldl (fun _ qubit sound => sound.settles_settle qubit) _ sound
    exact settled.trans settled.sound.settles_afterChange
  · exact sound.settles_refl

theorem Sound.get?_settleAll (sound : reg.Sound) (qubit : ℕ) :
    reg.settleAll.pending.get? qubit = none := by
  unfold settleAll
  split
  · have settles (reg : Register ℝ) (q : ℕ) (sound : reg.Sound) := sound.settles_settle q
    have settled := Sound.settles_foldl settles (List.range reg.width) sound
    refine settled.sound.settles_afterChange.free ?_
    by_cases inside : qubit < reg.width
    · exact Sound.foldl_each (fun q reg => reg.pending.get? q = none) settles
        (fun reg q _ => reg.get?_settle_self q) (fun _ _ _ settles => settles.free) _ sound qubit
        (List.mem_range.mpr inside)
    · exact PendingGates.get?_of_width_le
        (settled.sound.slots.le.trans (settled.width.le.trans (not_lt.mp inside)))
  · next idle => exact PendingGates.get?_of_not_any (Bool.eq_false_iff.mpr idle) qubit

theorem Sound.settleAll_state (sound : reg.Sound) : reg.settleAll.tree.state = reg.state :=
  (PendingGates.actOn_of_free (fun q _ => sound.get?_settleAll q) _).symm.trans
    sound.settles_settleAll.state

theorem Sound.toComplex_represented (sound : reg.Sound) (index : BasisIndex) :
    (reg.represented index).toComplex = reg.state index.testBit := by
  rw [represented, sound.settles_settleAll.sound.tree.toComplex_amplitude, sound.settleAll_state]

/-- Settled gates leave the represented amplitudes alone. -/
theorem Settles.represented (settles : Settles reg result) (sound : reg.Sound)
    (index : BasisIndex) : result.represented index = reg.represented index :=
  Amplitude.toComplex_injective
    (by rw [settles.sound.toComplex_represented, sound.toComplex_represented, settles.state])

/-! ## Fresh registers -/

variable {width : ℕ} {index : BasisIndex} {config : Config ℝ}

/-- A fresh register has admitted settings and stands for a basis state of its width. -/
theorem eq_of_create {entropy : UInt64} (made : create width index config entropy = .ok reg) :
    config.validate = .ok () ∧ index.check width = .ok () ∧ ∃ generator,
      reg = ⟨.basis width index 1 config.separability, .empty width, config, generator,
        .ofLimit config.denseLimit⟩ := by
  unfold create at made
  cases valid : config.validate with
  | error e =>
      rw [valid] at made
      cases made
  | ok _ =>
      rw [valid] at made
      by_cases wide : BasisIndex.maxWidth < width
      · simp only [if_pos wide] at made
        cases made
      · simp only [if_neg wide] at made
        cases addressed : index.check width with
        | error e =>
            rw [addressed] at made
            cases made
        | ok _ =>
            rw [addressed] at made
            cases made
            exact ⟨rfl, rfl, _, rfl⟩

theorem exists_create (admitted : config.validate = .ok ()) (narrow : width ≤ BasisIndex.maxWidth)
    (addressed : index.check width = .ok ()) (entropy : UInt64) :
    ∃ reg, create width index config entropy = .ok reg := by
  rw [create, admitted, addressed]
  dsimp only [Except.mapError]
  simp only [if_neg (not_lt.mpr narrow)]
  exact ⟨_, rfl⟩

theorem sound_of_create {entropy : UInt64} (made : create width index config entropy = .ok reg)
    (exact : config.separability = 0) :
    reg.Sound ∧ reg.pending.Unitary ∧ reg.width = width ∧
      reg.state = Tree.basisState index 0 width 1 := by
  obtain ⟨valid, -, generator, rfl⟩ := eq_of_create made
  obtain ⟨treeSound, state⟩ := Tree.sound_basis width index 1
  rw [exact]
  refine ⟨⟨treeSound, List.length_replicate, exact, valid⟩, PendingGates.unitary_empty width, rfl, ?_⟩
  funext bits
  rw [Register.state, PendingGates.act_empty, state]
  exact one_mul _

theorem represented_of_create {entropy : UInt64}
    (made : create width index config entropy = .ok reg) (exact : config.separability = 0)
    (bound : index < 2 ^ width) {other : BasisIndex} (below : other < 2 ^ width) :
    reg.represented other = if other = index then 1 else 0 := by
  obtain ⟨sound, -, -, state⟩ := sound_of_create made exact
  rw [← Amplitude.toComplex_inj, sound.toComplex_represented, state, Tree.basisState]
  by_cases same : other = index
  · rw [if_pos same, if_pos fun _ _ _ => by rw [same], Amplitude.toComplex_one]
  · rw [if_neg same, Amplitude.toComplex_zero, if_neg]
    intro agree
    exact same (BasisIndex.eq_of_testBit below bound fun q inside => agree q (Nat.zero_le q) inside)

end Register

end AmplitudeTree
